import Storyline.Proofs.Forks.Naming
import Storyline.Proofs.Forks.Weave

/-!
# Sessions of a story and its solo

What a main timeline sees of a session is the same in both playbacks: the step,
the line and the title on screen, the backlog, the flags, the voice, its scopes
and the parked actions.  An operation of the main timeline keeps the sessions
the same, if it is done in both; what strays do, nobody sees.
-/

namespace Storyline

def AudioCall.channel : AudioCall → Channel
  | .stop channel => channel
  | .play channel .. => channel

namespace Stage

/-- What a main timeline shows: the step, the line and the title. -/
def front (s : Stage) : Option Nat × Option Line × Option String := (s.step, s.talk, s.telop)

variable {stage stage' : Stage}

theorem front_setCover (cover : Cover) (state : CoverState) (stage : Stage) :
    (stage.setCover cover state).front = stage.front := by
  cases cover <;> rfl

theorem front_setShake (shake : Shake) (state : ShakeState) (stage : Stage) :
    (stage.setShake shake state).front = stage.front := by
  cases shake <;> rfl

theorem front_setScenery (path : String) (scenery : Scenery) (stage : Stage) :
    (setScenery path scenery stage).front = stage.front := by
  cases scenery <;> rfl

theorem front_coverShown {cover : Cover} {stamp : Nat}
    (h : stage.coverShown cover stamp = some stage') : stage'.front = stage.front := by
  unfold coverShown at h
  dsimp only at h
  split at h
  · rw [← Option.some.inj h, front_setCover]
  · cases h

theorem front_sway {shake : Shake} {stamp : Nat} {finished : Bool} {offset : Binary32 × Binary32}
    (h : stage.sway shake stamp finished offset = some stage') : stage'.front = stage.front := by
  unfold sway at h
  dsimp only at h
  split at h
  · rw [← Option.some.inj h, front_setShake]
  · cases h

theorem front_modifyLayout {c : CharacterId} {f : Layout → Layout}
    (h : stage.modifyLayout c f = some stage') : stage'.front = stage.front := by
  unfold modifyLayout at h
  split at h
  · rw [← Option.some.inj h]
    rfl
  · cases h

theorem front_change {change : ModelChange} (h : change.apply stage = some stage') :
    stage'.front = stage.front := by
  cases change with
  | «show» c model position =>
      rw [← Option.some.inj h]
      unfold showModel
      split <;> rfl
  | hide c =>
      unfold ModelChange.apply hideModel at h
      dsimp only at h
      split at h
      · cases h
      · rw [← Option.some.inj h]
        rfl
  | move c position => exact front_modifyLayout h
  | act c motion => exact front_modifyLayout h
  | express c expression => exact front_modifyLayout h

end Stage

namespace Naming

variable (N : Naming) (m n : Nat)

def meetId : Naming := { N with ids := N.ids ++ [(m, n)] }

def meetTimer : Naming := { N with timers := N.timers ++ [(m, n)] }

def meetTask : Naming := { N with tasks := N.tasks ++ [(m, n)] }

def strayScope : Naming := { N with strayScopes := N.strayScopes ++ [m] }

def strayTask : Naming := { N with strayTasks := N.strayTasks ++ [m] }

theorem le_meetId : N ≤ N.meetId m n := { le_refl N with ids := List.subset_append_left _ _ }

theorem le_meetTimer : N ≤ N.meetTimer m n :=
  { le_refl N with timers := List.subset_append_left _ _ }

theorem le_meetTask : N ≤ N.meetTask m n := { le_refl N with tasks := List.subset_append_left _ _ }

theorem le_strayScope : N ≤ N.strayScope m :=
  { le_refl N with strayScopes := List.subset_append_left _ _ }

theorem le_strayTask : N ≤ N.strayTask m :=
  { le_refl N with strayTasks := List.subset_append_left _ _ }

theorem mem_meetId : (m, n) ∈ (N.meetId m n).ids := List.mem_append_right _ List.mem_cons_self

theorem mem_meetTimer : (m, n) ∈ (N.meetTimer m n).timers :=
  List.mem_append_right _ List.mem_cons_self

theorem mem_meetTask : (m, n) ∈ (N.meetTask m n).tasks := List.mem_append_right _ List.mem_cons_self

theorem mem_strayScope : m ∈ (N.strayScope m).strayScopes :=
  List.mem_append_right _ List.mem_cons_self

theorem mem_strayTask : m ∈ (N.strayTask m).strayTasks :=
  List.mem_append_right _ List.mem_cons_self

/-! ## Scopes -/

variable {N} {sc sc' : Scope}

theorem SameScope.counter (h : N.SameScope sc sc') (tally : Tally) :
    sc.counter tally = sc'.counter tally := by
  cases tally with
  | actions => exact h.actions
  | taps => exact h.taps

theorem SameScope.modify (h : N.SameScope sc sc') (tally : Tally) (f : Counter → Counter) :
    N.SameScope (sc.modify tally f) (sc'.modify tally f) := by
  cases tally with
  | actions => exact { h with actions := congrArg f h.actions }
  | taps => exact { h with taps := congrArg f h.taps }

theorem SameScope.enter (h : N.SameScope sc sc') (tapBlocking : Bool) :
    N.SameScope (sc.enter tapBlocking) (sc'.enter tapBlocking) := by
  cases tapBlocking with
  | false => exact h.modify .actions .acquire
  | true => exact (h.modify .actions .acquire).modify .taps .acquire

theorem SameScope.reset (h : N.SameScope sc sc') : N.SameScope sc.reset sc'.reset :=
  ⟨h.id, congrArg Counter.reset h.actions, congrArg Counter.reset h.taps⟩

end Naming

namespace Session

def voiceCalls (s : Session) : List (Nat × AudioCall) :=
  s.calls.filter fun c ↦ c.2.channel == .voice

/-- A session of a story and one of its solo, with the same main timeline. -/
structure Mirrors (N : Naming) (s v : Session) : Prop where
  config : s.config = v.config
  host : s.host = v.host
  now : s.now = v.now
  front : s.stage.front = v.stage.front
  backlog : s.backlog = v.backlog
  autoPlay : s.autoPlay = v.autoPlay
  fastForward : s.fastForward = v.fastForward
  skips : s.skips = v.skips
  cancelled : s.cancelled = v.cancelled
  voices : s.voices = v.voices
  calls : s.voiceCalls = v.voiceCalls
  voiceEnd : s.voiceEnd = v.voiceEnd
  scopes : Weave N.SameScope (fun sc ↦ sc.id ∈ N.strayScopes) s.scopes v.scopes
  taps : List.Forall₂ N.SamePark s.taps v.taps
  ids : Naming.Paired N.ids s.serial v.serial
  timers : Naming.Paired N.timers s.armed v.armed
  strays : Naming.Apart N.strayScopes N.ids s.serial

/-- A session becomes another one, and no main timeline sees it. -/
inductive Unseen (s : Session) : Session → Prop
  | intro (stage : Stage) (revision draws serial armed : Nat) (calls : List (Nat × AudioCall))
    (hfront : stage.front = s.stage.front) (hserial : s.serial ≤ serial) (harmed : s.armed ≤ armed)
    (hcalls : calls.filter (fun c ↦ c.2.channel == .voice) = s.voiceCalls) :
    Unseen s { s with
      stage := stage
      revision := revision
      draws := draws
      serial := serial
      armed := armed
      calls := calls }

variable {N : Naming} {s s' v v' : Session}

/-! ## What nobody sees -/

theorem Unseen.refl (s : Session) : s.Unseen s :=
  .intro s.stage s.revision s.draws s.serial s.armed s.calls rfl (Nat.le_refl _) (Nat.le_refl _) rfl

theorem Unseen.trans {t : Session} (h : s.Unseen s') (h' : s'.Unseen t) : s.Unseen t := by
  obtain ⟨_, _, _, _, _, _, hfront, hserial, harmed, hcalls⟩ := h
  obtain ⟨stage, revision, draws, serial, armed, calls, hfront', hserial', harmed', hcalls'⟩ := h'
  exact .intro stage revision draws serial armed calls (hfront'.trans hfront)
    (Nat.le_trans hserial hserial') (Nat.le_trans harmed harmed') (hcalls'.trans hcalls)

theorem unseen_present {f : Stage → Stage} (hf : ∀ stage, (f stage).front = stage.front) :
    s.Unseen (s.present f) := by
  unfold present
  split
  · exact .refl s
  · exact .intro (f s.stage) (s.revision + 1) s.draws s.serial s.armed s.calls (hf s.stage)
      (Nat.le_refl _) (Nat.le_refl _) rfl

theorem unseen_presentIf {f : Stage → Option Stage}
    (hf : ∀ stage stage', f stage = some stage' → stage'.front = stage.front) :
    s.Unseen (s.presentIf f) := by
  unfold presentIf
  split
  · exact .refl s
  split
  next stage hstage =>
    exact .intro stage (s.revision + 1) s.draws s.serial s.armed s.calls (hf _ _ hstage)
      (Nat.le_refl _) (Nat.le_refl _) rfl
  next => exact .refl s

theorem unseen_arm : s.Unseen { s with armed := s.armed + 1 } :=
  .intro s.stage s.revision s.draws s.serial (s.armed + 1) s.calls rfl (Nat.le_refl _)
    (Nat.le_succ _) rfl

theorem unseen_draws (n : Nat) : s.Unseen { s with draws := n } :=
  .intro s.stage s.revision n s.serial s.armed s.calls rfl (Nat.le_refl _) (Nat.le_refl _) rfl

theorem unseen_nextSerial : s.Unseen s.nextSerial.2 :=
  .intro s.stage s.revision s.draws (s.serial + 1) s.armed s.calls rfl (Nat.le_succ _)
    (Nat.le_refl _) rfl

theorem unseen_call {c : AudioCall} (hc : c.channel ≠ .voice) : s.Unseen (s.call c) := by
  unfold call
  split
  · refine .intro s.stage s.revision s.draws s.serial s.armed _ rfl (Nat.le_refl _)
      (Nat.le_refl _) ?_
    simp [voiceCalls, hc]
  · exact .refl s

theorem unseen_stopSound {channel : Channel} (hc : channel ≠ .voice) :
    s.Unseen (s.stopSound channel) := by
  unfold stopSound
  rw [if_neg hc]
  exact unseen_call hc

theorem unseen_playSound {channel : Channel} (hc : channel ≠ .voice) (sound : Sound)
    (looping : Bool) : s.Unseen (s.playSound channel sound looping) := by
  have hcall : s.Unseen (s.call (.play channel sound looping)) := unseen_call hc
  cases channel with
  | voice => exact absurd rfl hc
  | bgm => exact hcall
  | se => exact hcall

theorem unseen_change (change : ModelChange) : s.Unseen (s.presentIf change.apply) :=
  unseen_presentIf fun _ _ hstage ↦ Stage.front_change hstage

theorem unseen_startCover (cover : Cover) (visible : Bool) (d : Duration) (stamp : Nat) :
    s.Unseen (s.nextSerial.2.present (Stage.startCover cover visible d stamp)) :=
  unseen_nextSerial.trans (unseen_present fun stage ↦ Stage.front_setCover cover _ stage)

theorem unseen_coverShown (cover : Cover) (stamp : Nat) :
    s.Unseen (s.presentIf (Stage.coverShown cover stamp)) :=
  unseen_presentIf fun _ _ hstage ↦ Stage.front_coverShown hstage

theorem unseen_startShake (shake : Shake) (d : Duration) (stamp : Nat) :
    s.Unseen (s.nextSerial.2.present (Stage.startShake shake d stamp)) :=
  unseen_nextSerial.trans (unseen_present fun stage ↦ Stage.front_setShake shake _ stage)

theorem unseen_sway (shake : Shake) (stamp : Nat) (finished : Bool) (offset : Binary32 × Binary32)
    (n : Nat) : s.Unseen ({ s with draws := n }.presentIf (Stage.sway shake stamp finished offset)) :=
  (unseen_draws n).trans (unseen_presentIf fun _ _ hstage ↦ Stage.front_sway hstage)

theorem unseen_setScenery (path : String) (scenery : Scenery) :
    s.Unseen (s.present (Stage.setScenery path scenery)) :=
  unseen_present fun stage ↦ Stage.front_setScenery path scenery stage

theorem unseen_playBgm (path : String) :
    s.Unseen ((s.stopSound .bgm).playSound .bgm (.path path) true) :=
  (unseen_stopSound (by decide)).trans (unseen_playSound (by decide) (.path path) true)

theorem unseen_playSe (path : String) : s.Unseen (s.playSound .se (.path path) false) :=
  unseen_playSound (by decide) (.path path) false

namespace Mirrors

theorem unseen (h : s.Mirrors N v) (hs : s.Unseen s') (hv : v.Unseen v') : s'.Mirrors N v' := by
  obtain ⟨_, _, _, _, _, _, hfront, hserial, harmed, hcalls⟩ := hs
  obtain ⟨_, _, _, _, _, _, hfront', hserial', harmed', hcalls'⟩ := hv
  exact { h with
    front := hfront.trans (h.front.trans hfront'.symm)
    calls := hcalls.trans (h.calls.trans hcalls'.symm)
    ids := h.ids.mono hserial hserial'
    timers := h.timers.mono harmed harmed'
    strays := h.strays.mono hserial }

/-! ## New names -/

section

variable {M : Naming}

theorem weave_mono (h : s.Mirrors N v) (hle : N ≤ M) :
    Weave M.SameScope (fun sc ↦ sc.id ∈ M.strayScopes) s.scopes v.scopes :=
  h.scopes.imp (fun hsc ↦ hsc.mono hle) fun hsc ↦ hle.strayScopes hsc

theorem taps_mono (h : s.Mirrors N v) (hle : N ≤ M) : List.Forall₂ M.SamePark s.taps v.taps :=
  h.taps.imp fun _ _ ht ↦ ht.mono hle

theorem rename (h : s.Mirrors N v) (hle : N ≤ M) (hids : M.ids = N.ids)
    (htimers : M.timers = N.timers) (hstrays : M.strayScopes = N.strayScopes) : s.Mirrors M v :=
  { h with
    scopes := h.weave_mono hle
    taps := h.taps_mono hle
    ids := hids ▸ h.ids
    timers := htimers ▸ h.timers
    strays := hids ▸ hstrays ▸ h.strays }

end

theorem arm (h : s.Mirrors N v) :
    { s with armed := s.armed + 1 }.Mirrors (N.meetTimer s.armed v.armed)
      { v with armed := v.armed + 1 } :=
  { h with
    scopes := h.weave_mono (N.le_meetTimer _ _)
    taps := h.taps_mono (N.le_meetTimer _ _)
    timers := h.timers.next }

theorem park (h : s.Mirrors N v) :
    s.park.2.Mirrors (N.meetId s.serial v.serial) v.park.2 :=
  { h with
    scopes := h.weave_mono (N.le_meetId _ _)
    taps := List.rel_append (h.taps_mono (N.le_meetId _ _)) (.cons ⟨N.mem_meetId _ _, rfl⟩ .nil)
    ids := h.ids.next
    strays := h.strays.next _ }

theorem openScope (h : s.Mirrors N v) (parent parent' : Option Nat) :
    (s.openScope parent).2.Mirrors (N.meetId s.serial v.serial) (v.openScope parent').2 :=
  { h with
    scopes := (h.weave_mono (N.le_meetId _ _)).append (.pair ⟨N.mem_meetId _ _, rfl, rfl⟩ .nil)
    taps := h.taps_mono (N.le_meetId _ _)
    ids := h.ids.next
    strays := h.strays.next _ }

theorem openStray (h : s.Mirrors N v) (parent : Option Nat) :
    (s.openScope parent).2.Mirrors (N.strayScope s.serial) v :=
  { h with
    scopes := by
      have hnew : Weave (N.strayScope s.serial).SameScope
          (fun sc ↦ sc.id ∈ (N.strayScope s.serial).strayScopes) [Scope.fresh s.serial parent] [] :=
        .stray (N.mem_strayScope _) .nil
      have hscopes := (h.weave_mono (N.le_strayScope _)).append hnew
      rwa [List.append_nil] at hscopes
    taps := h.taps_mono (N.le_strayScope _)
    ids := h.ids.mono (Nat.le_succ _) (Nat.le_refl _)
    strays := h.strays.stray fun x hx ↦ (h.ids.lt x hx).1 }

/-! ## Scopes -/

section scopes

variable {id id' : Nat}

theorem beq_id (h : s.Mirrors N v) (hid : (id, id') ∈ N.ids) {a b : Nat} (hab : (a, b) ∈ N.ids) :
    (a == id) = (b == id') :=
  decide_eq_decide.mpr (h.ids.eq_iff hab hid)

theorem beq_stray (h : s.Mirrors N v) (hid : (id, id') ∈ N.ids) {a : Nat}
    (ha : a ∈ N.strayScopes) : (a == id) = false :=
  beq_eq_false_iff_ne.mpr (h.strays.ne hid ha).symm

theorem modifyScope (h : s.Mirrors N v) (hid : (id, id') ∈ N.ids) {f : Scope → Scope}
    (hf : ∀ {sc sc'}, N.SameScope sc sc' → N.SameScope (f sc) (f sc')) :
    (s.modifyScope id f).Mirrors N (v.modifyScope id' f) := by
  refine { h with scopes := h.scopes.map (fun {sc sc'} hsc ↦ ?_) fun {sc} hsc ↦ ?_ }
  · rw [h.beq_id hid hsc.id]
    split
    · exact hf hsc
    · exact hsc
  · rw [h.beq_stray hid hsc]
    exact hsc

theorem modifyStray (h : s.Mirrors N v) (hid : id ∈ N.strayScopes) {f : Scope → Scope}
    (hf : ∀ sc, (f sc).id = sc.id) : (s.modifyScope id f).Mirrors N v := by
  have hscopes := h.scopes.map (g := fun sc ↦ sc) (S := N.SameScope)
    (P := fun sc ↦ sc.id ∈ N.strayScopes) (f := fun sc ↦ if sc.id == id then f sc else sc)
    (fun {sc sc'} hsc ↦ ?_) fun {sc} hsc ↦ ?_
  · rw [List.map_id'] at hscopes
    exact { h with scopes := hscopes }
  · rw [if_neg (by simpa using h.strays.ne hsc.id hid)]
    exact hsc
  · split
    · rwa [hf]
    · exact hsc

theorem resetScopes (h : s.Mirrors N v) : s.resetScopes.Mirrors N v.resetScopes :=
  { h with scopes := h.scopes.map (fun hsc ↦ hsc.reset) fun hsc ↦ hsc }

theorem scope? (h : s.Mirrors N v) (hid : (id, id') ∈ N.ids) :
    Option.Rel N.SameScope (s.scope? id) (v.scope? id') :=
  h.scopes.find? (fun hsc ↦ h.beq_id hid hsc.id) fun hsc ↦ h.beq_stray hid hsc

theorem pending (h : s.Mirrors N v) (hid : (id, id') ∈ N.ids) (tally : Tally) :
    s.pending id tally = v.pending id' tally := by
  unfold Session.pending
  have hscope := h.scope? hid
  revert hscope
  generalize s.scope? id = a
  generalize v.scope? id' = b
  rintro (hsc | _)
  · exact congrArg Counter.pending (hsc.counter tally)
  · rfl

theorem ticket (h : s.Mirrors N v) (hid : (id, id') ∈ N.ids) (tapBlocking : Bool) :
    N.SameTicket (s.ticket id tapBlocking) (v.ticket id' tapBlocking) := by
  unfold Session.ticket
  have hscope := h.scope? hid
  revert hscope
  generalize s.scope? id = a
  generalize v.scope? id' = b
  rintro (hsc | _)
  · exact ⟨hsc.id, congrArg Counter.epoch hsc.actions, by simp only [Scope.ticket, hsc.taps]⟩
  · exact ⟨hid, rfl, rfl⟩

end scopes

/-! ## The stage, the backlog and the voice -/

theorem ifThen (h : s.Mirrors N v) {b b' : Bool} (hb : b = b') (h' : s'.Mirrors N v') :
    (if b then s else s').Mirrors N (if b' then v else v') := by
  subst hb
  split
  · exact h
  · exact h'

theorem present (h : s.Mirrors N v) {f : Stage → Stage}
    (hf : ∀ {stage stage' : Stage}, stage.front = stage'.front → (f stage).front = (f stage').front) :
    (s.present f).Mirrors N (v.present f) := by
  unfold Session.present
  exact h.ifThen h.cancelled { h with front := hf h.front }

theorem clearTelop (h : s.Mirrors N v) (text : String) :
    (s.presentIf (Stage.clearTelop text)).Mirrors N (v.presentIf (Stage.clearTelop text)) := by
  have htelop : s.stage.telop = v.stage.telop := congrArg (·.2.2) h.front
  unfold Session.presentIf Stage.clearTelop
  refine h.ifThen h.cancelled ?_
  by_cases ht : v.stage.telop = some text
  · rw [if_pos (htelop.trans ht), if_pos ht]
    exact { h with front := congrArg (fun front ↦ (front.1, front.2.1, none)) h.front }
  · rw [if_neg fun hs ↦ ht (htelop.symm.trans hs), if_neg ht]
    exact h

theorem pushBacklog (h : s.Mirrors N v) (line : Line) :
    (s.pushBacklog line).Mirrors N (v.pushBacklog line) :=
  { h with backlog := congrArg (· ++ [line]) h.backlog }

theorem call (h : s.Mirrors N v) (c : AudioCall) : (s.call c).Mirrors N (v.call c) := by
  have hcalls : s.calls.filter _ = v.calls.filter _ := h.calls
  have hcall : { s with calls := s.calls ++ [(s.now, c)] }.Mirrors N
      { v with calls := v.calls ++ [(v.now, c)] } :=
    { h with calls := by simp only [voiceCalls, List.filter_append, hcalls, h.now] }
  unfold Session.call
  split
  next hs =>
    rw [if_pos (h.host ▸ hs)]
    exact hcall
  next hs =>
    rw [if_neg (h.host ▸ hs)]
    exact h

theorem stopSound (h : s.Mirrors N v) (channel : Channel) :
    (s.stopSound channel).Mirrors N (v.stopSound channel) := by
  have hcall := h.call (.stop channel)
  unfold Session.stopSound
  dsimp only
  split
  · exact { hcall with voiceEnd := rfl }
  · exact hcall

theorem playBlob (h : s.Mirrors N v) (blob : Bytes) :
    (s.playSound .voice (.blob blob) false).Mirrors N (v.playSound .voice (.blob blob) false) := by
  have hcall := h.call (.play .voice (.blob blob) false)
  refine { hcall with voiceEnd := ?_ }
  simp only [Session.playSound, voiceEndOf, hcall.host, hcall.now]

theorem playVoice (h : s.Mirrors N v) (path : String) :
    (s.playVoice path).2.Mirrors N (v.playVoice path).2 := by
  unfold Session.playVoice
  rw [h.voices]
  split
  next blob _ => exact (h.stopSound .voice).playBlob blob
  next => exact h

/-! ## Taps -/

section taps

variable {id id' : Nat}

theorem isParked (h : s.Mirrors N v) (hid : (id, id') ∈ N.ids) :
    s.isParked id = v.isParked id' :=
  (Weave.of_forall₂ (Q := fun _ ↦ False) h.taps).any (fun ht ↦ h.beq_id hid ht.id) False.elim

theorem unpark (h : s.Mirrors N v) (hid : (id, id') ∈ N.ids) :
    (s.unpark id).Mirrors N (v.unpark id') := by
  refine { h with taps := List.rel_filter (fun t t' ht ↦ ?_) h.taps }
  simp only [bne_iff_ne, ne_eq, h.ids.eq_iff ht.id hid]

theorem abandon (h : s.Mirrors N v) (hid : (id, id') ∈ N.ids) :
    (s.abandon id).Mirrors N (v.abandon id') := by
  refine { h with taps := List.rel_map (fun t t' ht ↦ ?_) h.taps }
  rw [h.beq_id hid ht.id]
  split
  · exact { ht with live := rfl }
  · exact ht

theorem top (h : s.Mirrors N v) :
    List.Forall₂ N.SamePark (s.taps.reverse.dropWhile fun t ↦ !t.live)
      (v.taps.reverse.dropWhile fun t ↦ !t.live) :=
  forall₂_dropWhile (List.forall₂_reverse_iff.mpr h.taps) fun ht ↦ congrArg not ht.live

theorem nextTap (h : s.Mirrors N v) : s.nextTap.isSome = v.nextTap.isSome := by
  have htop := h.top
  unfold Session.nextTap
  revert htop
  generalize s.taps.reverse.dropWhile _ = l
  generalize v.taps.reverse.dropWhile _ = l'
  rintro (_ | _) <;> rfl

theorem takeTap (h : s.Mirrors N v) : s.takeTap.Mirrors N v.takeTap := by
  refine { h with taps := List.forall₂_reverse_iff.mpr ?_ }
  rw [← List.drop_one, ← List.drop_one]
  exact List.forall₂_drop 1 h.top

end taps

/-! ## Flags, time and the end -/

theorem setAutoPlay (h : s.Mirrors N v) (on : Bool) :
    (s.setAutoPlay on).Mirrors N (v.setAutoPlay on) := by
  unfold Session.setAutoPlay
  exact h.ifThen h.cancelled { h with autoPlay := rfl }

theorem setFastForward (h : s.Mirrors N v) (on : Bool) :
    (s.setFastForward on).Mirrors N (v.setFastForward on) := by
  unfold Session.setFastForward
  exact h.ifThen h.cancelled { h with fastForward := rfl }

theorem skip (h : s.Mirrors N v) : s.skip.Mirrors N v.skip :=
  { h with skips := congrArg (· + 1) h.skips }

theorem setNow (h : s.Mirrors N v) (time : Nat) :
    { s with now := time }.Mirrors N { v with now := time } :=
  { h with now := rfl }

theorem cacheVoice (h : s.Mirrors N v) (path : String) (content : Bytes) :
    { s with voices := s.voices.insert path content }.Mirrors N
      { v with voices := v.voices.insert path content } :=
  { h with voices := congrArg (·.insert path content) h.voices }

theorem isSpeaking (h : s.Mirrors N v) : s.isSpeaking = v.isSpeaking := by
  unfold Session.isSpeaking
  rw [h.voiceEnd, h.now]

theorem cancel (h : s.Mirrors N v) : s.cancel.Mirrors N v.cancel := by
  have hforgot : { s with cancelled := true, taps := [] }.Mirrors N
      { v with cancelled := true, taps := [] } := { h with cancelled := rfl, taps := .nil }
  exact ((hforgot.resetScopes.stopSound .voice).stopSound .bgm).stopSound .se

end Mirrors

end Session

end Storyline
