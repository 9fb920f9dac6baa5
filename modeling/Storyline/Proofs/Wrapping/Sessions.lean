import Storyline.Proofs.Forks.Weave
import Storyline.Proofs.Playback.Books
import Storyline.Proofs.Wrapping.Names
import Storyline.Proofs.Wrapping.Stages

/-!
# Sessions of a story with wrapped actions

The sessions of the two playbacks are twins: they are the same up to names and to the
tickets that have taken a detour.  Such a ticket is missing in the scope around the
block, and the scope of the block counts it alone.  Every operation that both
playbacks do keeps the sessions twins.
-/

namespace Storyline

namespace Session

variable {s : Session}

theorem scope?_lt (h : s.Numbered) {id : Nat} {sc : Scope} (hsc : s.scope? id = some sc) :
    id < s.serial := by
  have hid : sc.id = id := by simpa using List.find?_some hsc
  exact hid ▸ h.lt sc (List.mem_of_find?_eq_some hsc)

theorem scope?_serial (h : s.Numbered) : s.scope? s.serial = none :=
  Option.eq_none_iff_forall_ne_some.mpr fun _ hsc ↦ Nat.lt_irrefl _ (scope?_lt h hsc)

theorem scope?_openScope_self (h : s.Numbered) (parent : Option Nat) :
    (s.openScope parent).2.scope? s.serial = some (Scope.fresh s.serial parent) := by
  have hnone : s.scopes.find? (fun sc ↦ sc.id == s.serial) = none := scope?_serial h
  simp [openScope, scope?, List.find?_append, hnone, Scope.fresh]

theorem scope?_openScope {parent : Option Nat} {id : Nat} {sc : Scope} (hsc : s.scope? id = some sc) :
    (s.openScope parent).2.scope? id = some sc := by
  have hsc : s.scopes.find? (fun sc ↦ sc.id == id) = some sc := hsc
  simp [openScope, scope?, List.find?_append, hsc]

theorem scope?_modifyScope_self {id : Nat} {f : Scope → Scope} {sc : Scope}
    (hf : ∀ sc, (f sc).id = sc.id) (hsc : s.scope? id = some sc) :
    (s.modifyScope id f).scope? id = some (f sc) := by
  rw [scope?_modifyScope hf, if_pos rfl, hsc, Option.map_some]

theorem scope?_modifyScope_ne {id other : Nat} {f : Scope → Scope} (hf : ∀ sc, (f sc).id = sc.id)
    (hne : other ≠ id) : (s.modifyScope id f).scope? other = s.scope? other := by
  rw [scope?_modifyScope hf, if_neg hne]

theorem pending_eq {id : Nat} {sc : Scope} (hsc : s.scope? id = some sc) (tally : Tally) :
    s.pending id tally = (sc.counter tally).pending := by
  rw [pending, hsc]

theorem ticket_tapless (id : Nat) : (s.ticket id false).tapEpoch = none := by
  unfold ticket
  split <;> rfl

end Session

namespace Scope

variable (sc : Scope) (tally : Tally)

theorem pending_enter (tapBlocking : Bool) : ((sc.enter tapBlocking).counter tally).pending =
    (sc.counter tally).pending + tally.share tapBlocking := by
  cases tapBlocking <;> cases tally <;> rfl

theorem epoch_enter (tapBlocking : Bool) :
    ((sc.enter tapBlocking).counter tally).epoch = (sc.counter tally).epoch := by
  cases tapBlocking <;> cases tally <;> rfl

theorem epoch_release (t : Ticket) : ((sc.release t).counter tally).epoch = (sc.counter tally).epoch := by
  cases tally with
  | actions =>
      change (sc.release t).actions.epoch = _
      rw [release_actions, Counter.release_epoch]
      rfl
  | taps =>
      change (sc.release t).taps.epoch = _
      rw [release_taps]
      split
      · rw [Counter.release_epoch]
        rfl
      · rfl

variable {sc tally}

theorem pending_release {t : Ticket} (ht : t.IsFirst) (h : ∀ tally, (sc.counter tally).epoch = 0) :
    ((sc.release t).counter tally).pending = (sc.counter tally).pending - t.share tally := by
  cases tally with
  | actions =>
      have hepoch : sc.actions.epoch = 0 := h .actions
      change (sc.release t).actions.pending = sc.actions.pending - 1
      rw [release_actions, Counter.release_pending, hepoch, ht.epoch, if_pos rfl]
  | taps =>
      have hepoch : sc.taps.epoch = 0 := h .taps
      change (sc.release t).taps.pending = sc.taps.pending - _
      rw [release_taps, Ticket.share, Tally.share]
      cases htap : t.tapEpoch with
      | none => rfl
      | some epoch =>
          dsimp only
          rw [Counter.release_pending, hepoch, ht.tapped epoch htap, if_pos rfl]
          rfl

end Scope

namespace Wrapping

variable (N : Wrapping) (m n o : Nat)

/-- Two new numbers stand for each other. -/
def meet : Wrapping := { N with ids := N.ids ++ [(m, n)] }

/-- A scope is opened in both playbacks, for a task. -/
def furnish : Wrapping := { N with ids := N.ids ++ [(m, n)], homes := N.homes ++ [(n, o)] }

/-- The scope of a block around a wrapped action is opened. -/
def enclose : Wrapping := { N with inners := N.inners ++ [m] }

theorem le_meet : N ≤ N.meet m n :=
  { le_refl N with ids := List.subset_append_left _ _ }

theorem le_furnish : N ≤ N.furnish m n o :=
  { le_refl N with
    ids := List.subset_append_left _ _
    homes := List.subset_append_left _ _ }

theorem le_enclose : N ≤ N.enclose m :=
  { le_refl N with inners := List.subset_append_left _ _ }

theorem mem_meet : (m, n) ∈ (N.meet m n).ids := List.mem_append_right _ List.mem_cons_self

theorem mem_enclose : m ∈ (N.enclose m).inners := List.mem_append_right _ List.mem_cons_self

theorem sameRoom_furnish : (N.furnish m n o).SameRoom o m n :=
  ⟨List.mem_append_right _ List.mem_cons_self, List.mem_append_right _ List.mem_cons_self⟩

/-- Two scopes that count the same but for what is missing in the first one. -/
structure SameScope (missing : Tally → Nat) (sc' sc : Scope) : Prop where
  pending : ∀ tally, (sc.counter tally).pending = (sc'.counter tally).pending + missing tally
  epoch' : ∀ tally, (sc'.counter tally).epoch = 0
  epoch : ∀ tally, (sc.counter tally).epoch = 0

namespace SameScope

variable {missing : Tally → Nat} {sc' sc : Scope} {t' t : Ticket}

theorem enter (h : SameScope missing sc' sc) (tapBlocking : Bool) :
    SameScope missing (sc'.enter tapBlocking) (sc.enter tapBlocking) where
  pending := fun tally ↦ by
    rw [Scope.pending_enter, Scope.pending_enter, h.pending]
    exact Nat.add_right_comm _ _ _
  epoch' := fun tally ↦ (Scope.epoch_enter sc' tally tapBlocking).trans (h.epoch' tally)
  epoch := fun tally ↦ (Scope.epoch_enter sc tally tapBlocking).trans (h.epoch tally)

/-- A ticket is released in both scopes, if the first one counts it. -/
theorem release (h : SameScope missing sc' sc) (ht' : t'.IsFirst) (ht : t.IsFirst)
    (hsame : t'.tapEpoch = t.tapEpoch)
    (hpos : ∀ tally, missing tally = 0 ∨ t.share tally ≤ (sc'.counter tally).pending) :
    SameScope missing (sc'.release t') (sc.release t) where
  pending := fun tally ↦ by
    have hshare : t'.share tally = t.share tally :=
      congrArg (fun epoch : Option Nat ↦ tally.share epoch.isSome) hsame
    rw [Scope.pending_release ht h.epoch, Scope.pending_release ht' h.epoch', h.pending, hshare]
    have := hpos tally
    omega
  epoch' := fun tally ↦ (Scope.epoch_release sc' tally t').trans (h.epoch' tally)
  epoch := fun tally ↦ (Scope.epoch_release sc tally t).trans (h.epoch tally)

end SameScope

/-- A ticket that has taken a detour, and counts alone in the scope of the block. -/
structure Taken (N : Wrapping) (scopes : List Scope) (o : Nat) (d : Detour) : Prop where
  inner : d.inner ∈ N.inners
  room : ∃ scope', N.SameRoom o scope' d.ticket.scope
  first : d.ticket.IsFirst
  counts : ∃ sc, scopes.find? (fun sc ↦ sc.id == d.inner) = some sc ∧ sc.actions = ⟨1, 0⟩

/-- The scopes of the two playbacks, with the next numbers of their counters. -/
structure SameScopes (N : Wrapping) (D : Detours) (scopes' : List Scope) (m : Nat)
    (scopes : List Scope) (n : Nat) : Prop where
  nodup' : (scopes'.map Scope.id).Nodup
  nodup : (scopes.map Scope.id).Nodup
  lt' : ∀ sc ∈ scopes', sc.id < m
  lt : ∀ sc ∈ scopes, sc.id < n
  apart : Naming.Apart N.inners N.ids m
  homes_lt : ∀ x ∈ N.homes, x.1 < n
  homes_eq : ∀ x ∈ N.homes, ∀ y ∈ N.homes, x.1 = y.1 → x = y
  rooms : ∀ {o scope' scope}, N.SameRoom o scope' scope → ∃ sc' sc,
    scopes'.find? (fun sc ↦ sc.id == scope') = some sc' ∧
      scopes.find? (fun sc ↦ sc.id == scope) = some sc ∧ SameScope (D.missing o scope) sc' sc
  taken : ∀ o d, D o = some d → N.Taken scopes' o d
  distinct : ∀ o u d e, D o = some d → D u = some e → d.inner = e.inner → o = u

end Wrapping

namespace Session

/-- A session of a story with wrapped actions and one of the story itself, which are the
same but for names and detours. -/
structure Twins (N : Wrapping) (D : Detours) (s v : Session) : Prop where
  config : s.config = v.config
  host : s.host = v.host
  now : s.now = v.now
  armed : s.armed = v.armed
  draws : s.draws = v.draws
  stage : Stage.Same N.ids s.stage v.stage
  backlog : s.backlog = v.backlog
  autoPlay : s.autoPlay = v.autoPlay
  slow' : s.fastForward = false
  slow : v.fastForward = false
  skips : s.skips = v.skips
  goes' : s.cancelled = false
  goes : v.cancelled = false
  voices : s.voices = v.voices
  calls : s.calls = v.calls
  voiceEnd : s.voiceEnd = v.voiceEnd
  taps : List.Forall₂ N.SamePark s.taps v.taps
  ids : Naming.Paired N.ids s.serial v.serial
  scopes : N.SameScopes D s.scopes s.serial v.scopes v.serial

namespace Twins

variable {N M : Wrapping} {D : Detours} {s s' v v' : Session} {o scope' scope : Nat}

theorem numbered' (h : s.Twins N D v) : s.Numbered := ⟨h.scopes.nodup', h.scopes.lt'⟩

theorem numbered (h : s.Twins N D v) : v.Numbered := ⟨h.scopes.nodup, h.scopes.lt⟩

theorem rooms (h : s.Twins N D v) (hroom : N.SameRoom o scope' scope) : ∃ sc' sc,
    s.scope? scope' = some sc' ∧ v.scope? scope = some sc ∧
      Wrapping.SameScope (D.missing o scope) sc' sc :=
  h.scopes.rooms hroom

theorem counts (h : s.Twins N D v) {d : Detour} (hd : D o = some d) :
    ∃ sc, s.scope? d.inner = some sc ∧ sc.actions = ⟨1, 0⟩ :=
  (h.scopes.taken o d hd).counts

/-! ## New names -/

theorem mono_taps (h : s.Twins N D v) (hle : N ≤ M) : List.Forall₂ M.SamePark s.taps v.taps :=
  h.taps.imp fun _ _ ht ↦ ht.mono hle

theorem sameRoom_meet (h : s.Twins N D v)
    (hroom : (N.meet s.serial v.serial).SameRoom o scope' scope) : N.SameRoom o scope' scope := by
  have hlt := h.scopes.homes_lt _ hroom.home
  refine ⟨(List.mem_append.mp hroom.id).resolve_right fun hnew ↦ ?_, hroom.home⟩
  exact Nat.ne_of_lt hlt (congrArg Prod.snd (List.mem_singleton.mp hnew))

theorem sameRoom_furnish (h : s.Twins N D v) {u : Nat}
    (hroom : (N.furnish s.serial v.serial u).SameRoom o scope' scope) :
    N.SameRoom o scope' scope ∨ o = u ∧ scope' = s.serial ∧ scope = v.serial := by
  rcases List.mem_append.mp hroom.id with hid | hid <;>
    rcases List.mem_append.mp hroom.home with hhome | hhome
  · exact .inl ⟨hid, hhome⟩
  · have he := congrArg Prod.fst (List.mem_singleton.mp hhome)
    exact absurd he (Nat.ne_of_lt (h.ids.lt _ hid).2)
  · have he := congrArg Prod.snd (List.mem_singleton.mp hid)
    exact absurd he (Nat.ne_of_lt (h.scopes.homes_lt _ hhome))
  · obtain ⟨rfl, rfl⟩ := Prod.mk.inj (List.mem_singleton.mp hid)
    exact .inr ⟨congrArg Prod.snd (List.mem_singleton.mp hhome), rfl, rfl⟩

/-- Both counters give out their next number. -/
theorem meet (h : s.Twins N D v) :
    { s with serial := s.serial + 1 }.Twins (N.meet s.serial v.serial) D
      { v with serial := v.serial + 1 } :=
  have hle := N.le_meet s.serial v.serial
  { h with
    stage := h.stage.mono hle.ids
    taps := h.mono_taps hle
    ids := h.ids.next
    scopes :=
      { h.scopes with
        lt' := fun sc hsc ↦ Nat.lt_succ_of_lt (h.scopes.lt' sc hsc)
        lt := fun sc hsc ↦ Nat.lt_succ_of_lt (h.scopes.lt sc hsc)
        apart := h.scopes.apart.next _
        homes_lt := fun x hx ↦ Nat.lt_succ_of_lt (h.scopes.homes_lt x hx)
        rooms := fun hroom ↦ h.scopes.rooms (h.sameRoom_meet hroom)
        taken := fun o d hd ↦
          { h.scopes.taken o d hd with
            room := (h.scopes.taken o d hd).room.imp fun _ hroom ↦ hroom.mono hle } } }

theorem park (h : s.Twins N D v) : s.park.2.Twins (N.meet s.serial v.serial) D v.park.2 :=
  { h.meet with taps := List.rel_append h.meet.taps (.cons ⟨N.mem_meet _ _, rfl⟩ .nil) }

/-- Both playbacks open a scope for a task that has taken no detour. -/
theorem openScope (h : s.Twins N D v) (hD : D o = none) (parent' parent : Option Nat) :
    (s.openScope parent').2.Twins (N.furnish s.serial v.serial o) D (v.openScope parent).2 :=
  have hle := N.le_furnish s.serial v.serial o
  have hnumbered' := (carries_openScope parent').numbered h.numbered'
  have hnumbered := (carries_openScope parent).numbered h.numbered
  { h with
    stage := h.stage.mono hle.ids
    taps := h.mono_taps hle
    ids := h.ids.next
    scopes :=
      { nodup' := hnumbered'.nodup
        nodup := hnumbered.nodup
        lt' := hnumbered'.lt
        lt := hnumbered.lt
        apart := h.scopes.apart.next _
        homes_lt := by
          intro x hx
          rcases List.mem_append.mp hx with hx | hx
          · exact Nat.lt_succ_of_lt (h.scopes.homes_lt x hx)
          · rw [List.mem_singleton.mp hx]
            exact Nat.lt_succ_self _
        homes_eq := by
          intro x hx y hy he
          rcases List.mem_append.mp hx with hx | hx <;> rcases List.mem_append.mp hy with hy | hy
          · exact h.scopes.homes_eq x hx y hy he
          · rw [List.mem_singleton.mp hy] at he
            exact absurd he (Nat.ne_of_lt (h.scopes.homes_lt x hx))
          · rw [List.mem_singleton.mp hx] at he
            exact absurd he (Nat.ne_of_gt (h.scopes.homes_lt y hy))
          · rw [List.mem_singleton.mp hx, List.mem_singleton.mp hy]
        rooms := by
          intro u scope' scope hroom
          rcases h.sameRoom_furnish hroom with hold | ⟨rfl, rfl, rfl⟩
          · obtain ⟨sc', sc, hsc', hsc, hsame⟩ := h.rooms hold
            exact ⟨sc', sc, scope?_openScope hsc', scope?_openScope hsc, hsame⟩
          · have hmissing := D.missing_of_none hD v.serial
            refine ⟨_, _, scope?_openScope_self h.numbered' parent',
              scope?_openScope_self h.numbered parent, fun tally ↦ ?_, fun tally ↦ ?_, fun tally ↦ ?_⟩
            · rw [hmissing]
              cases tally <;> rfl
            · cases tally <;> rfl
            · cases tally <;> rfl
        taken := by
          intro u d hd
          obtain ⟨sc, hsc, hone⟩ := h.counts hd
          exact { h.scopes.taken u d hd with
            room := (h.scopes.taken u d hd).room.imp fun _ hroom ↦ hroom.mono hle
            counts := ⟨sc, scope?_openScope hsc, hone⟩ }
        distinct := h.scopes.distinct } }

/-- The block around a wrapped action opens a scope. -/
theorem openInner (h : s.Twins N D v) (parent : Option Nat) :
    (s.openScope parent).2.Twins (N.enclose s.serial) D v :=
  have hle := N.le_enclose s.serial
  have hnumbered' := (carries_openScope parent).numbered h.numbered'
  { h with
    stage := h.stage.mono hle.ids
    taps := h.mono_taps hle
    ids := h.ids.mono (Nat.le_succ _) (Nat.le_refl _)
    scopes :=
      { h.scopes with
        nodup' := hnumbered'.nodup
        lt' := hnumbered'.lt
        apart := h.scopes.apart.stray fun x hx ↦ (h.ids.lt x hx).1
        rooms := by
          intro u scope' scope hroom
          obtain ⟨sc', sc, hsc', hsc, hsame⟩ := h.rooms ⟨hroom.id, hroom.home⟩
          exact ⟨sc', sc, scope?_openScope hsc', hsc, hsame⟩
        taken := by
          intro u d hd
          obtain ⟨sc, hsc, hone⟩ := h.counts hd
          exact { h.scopes.taken u d hd with
            inner := hle.inners (h.scopes.taken u d hd).inner
            room := (h.scopes.taken u d hd).room.imp fun _ hroom ↦ hroom.mono hle
            counts := ⟨sc, scope?_openScope hsc, hone⟩ } } }

/-! ## Scopes -/

/-- A scope of the story has one task, and one scope stands for it. -/
theorem sameRoom_eq (h : s.Twins N D v) (hroom : N.SameRoom o scope' scope) {u other' other : Nat}
    (hother : N.SameRoom u other' other) (he : other = scope) : u = o ∧ other' = scope' :=
  ⟨congrArg Prod.snd (h.scopes.homes_eq _ hother.home _ hroom.home he),
    (h.ids.eq_iff hother.id hroom.id).mpr he⟩

theorem sameRoom_ne (h : s.Twins N D v) (hroom : N.SameRoom o scope' scope) {u other' other : Nat}
    (hother : N.SameRoom u other' other) (hne : other ≠ scope) : other' ≠ scope' :=
  mt (h.ids.eq_iff hother.id hroom.id).mp hne

theorem inner_ne (h : s.Twins N D v) (hroom : N.SameRoom o scope' scope) {inner : Nat}
    (hinner : inner ∈ N.inners) : inner ≠ scope' :=
  (h.scopes.apart.ne hroom.id hinner).symm

/-- The same is done to a scope in both playbacks. -/
theorem modifyRoom (h : s.Twins N D v) (hroom : N.SameRoom o scope' scope) {f' f : Scope → Scope}
    (hid' : ∀ sc, (f' sc).id = sc.id) (hid : ∀ sc, (f sc).id = sc.id)
    (hf : ∀ sc' sc, s.scope? scope' = some sc' → Wrapping.SameScope (D.missing o scope) sc' sc →
      Wrapping.SameScope (D.missing o scope) (f' sc') (f sc)) :
    (s.modifyScope scope' f').Twins N D (v.modifyScope scope f) :=
  have hnumbered' : (s.modifyScope scope' f').Numbered := numbered_modifyScope hid' h.numbered'
  have hnumbered : (v.modifyScope scope f).Numbered := numbered_modifyScope hid h.numbered
  { h with
    scopes :=
      { h.scopes with
        nodup' := hnumbered'.nodup
        nodup := hnumbered.nodup
        lt' := hnumbered'.lt
        lt := hnumbered.lt
        rooms := by
          intro u other' other hother
          obtain ⟨sc', sc, hsc', hsc, hsame⟩ := h.rooms hother
          by_cases he : other = scope
          · obtain ⟨rfl, rfl⟩ := h.sameRoom_eq hroom hother he
            subst he
            exact ⟨f' sc', f sc, scope?_modifyScope_self hid' hsc', scope?_modifyScope_self hid hsc,
              hf sc' sc hsc' hsame⟩
          · exact ⟨sc', sc, (scope?_modifyScope_ne hid' (h.sameRoom_ne hroom hother he)).trans hsc',
              (scope?_modifyScope_ne hid he).trans hsc, hsame⟩
        taken := by
          intro u d hd
          obtain ⟨sc, hsc, hone⟩ := h.counts hd
          have hne := h.inner_ne hroom (h.scopes.taken u d hd).inner
          exact { h.scopes.taken u d hd with
            counts := ⟨sc, (scope?_modifyScope_ne hid' hne).trans hsc, hone⟩ } } }

theorem enter (h : s.Twins N D v) (hroom : N.SameRoom o scope' scope) (tapBlocking : Bool) :
    (s.modifyScope scope' (.enter tapBlocking)).Twins N D (v.modifyScope scope (.enter tapBlocking)) :=
  h.modifyRoom hroom (Scope.enter_id tapBlocking) (Scope.enter_id tapBlocking)
    fun _ _ _ hsame ↦ hsame.enter tapBlocking

/-- A ticket is released in a scope from which none is missing, or by a settling. -/
theorem release (h : s.Twins N D v) {t' t : Ticket} (ht : N.SameTicket o t' t)
    (hpos : D o = none ∨ t.tapEpoch = none ∧ 0 < s.pending t'.scope .actions) :
    (s.modifyScope t'.scope (.release t')).Twins N D (v.modifyScope t.scope (.release t)) := by
  refine h.modifyRoom ht.room (Scope.release_id t') (Scope.release_id t) fun sc' sc hsc' hsame ↦ ?_
  refine hsame.release ht.first' ht.first ht.tapEpoch fun tally ↦ ?_
  rcases hpos with hD | ⟨htap, hpos⟩
  · exact .inl (D.missing_of_none hD _ _)
  · right
    rw [pending_eq hsc'] at hpos
    cases tally with
    | actions => exact hpos
    | taps =>
        rw [Ticket.share, htap]
        exact Nat.zero_le _

theorem pending (h : s.Twins N D v) (hroom : N.SameRoom o scope' scope) (hD : D o = none)
    (tally : Tally) : s.pending scope' tally = v.pending scope tally := by
  obtain ⟨sc', sc, hsc', hsc, hsame⟩ := h.rooms hroom
  rw [pending_eq hsc', pending_eq hsc, hsame.pending, D.missing_of_none hD, Nat.add_zero]

/-- The ticket that an action gets in a scope. -/
theorem ticket (h : s.Twins N D v) (hroom : N.SameRoom o scope' scope) (tapBlocking : Bool) :
    N.SameTicket o (s.ticket scope' tapBlocking) (v.ticket scope tapBlocking) := by
  obtain ⟨sc', sc, hsc', hsc, hsame⟩ := h.rooms hroom
  have hid' : sc'.id = scope' := by simpa using List.find?_some hsc'
  have hid : sc.id = scope := by simpa using List.find?_some hsc
  have hticket' : s.ticket scope' tapBlocking = sc'.ticket tapBlocking := by
    simp only [Session.ticket, hsc']
  have hticket : v.ticket scope tapBlocking = sc.ticket tapBlocking := by
    simp only [Session.ticket, hsc]
  have hepoch : ∀ tally, (sc.counter tally).epoch = 0 := hsame.epoch
  have hepoch' : ∀ tally, (sc'.counter tally).epoch = 0 := hsame.epoch'
  have hfirst : ∀ sc : Scope, (∀ tally, (sc.counter tally).epoch = 0) →
      (sc.ticket tapBlocking).IsFirst := by
    intro sc hzero
    refine ⟨hzero .actions, fun epoch he ↦ ?_⟩
    cases tapBlocking with
    | false => cases he
    | true => exact (Option.some.inj he).symm.trans (hzero .taps)
  have hroom : N.SameRoom o sc'.id sc.id := by rwa [hid', hid]
  rw [hticket', hticket]
  refine ⟨hroom, hfirst sc' hepoch', hfirst sc hepoch, ?_⟩
  cases tapBlocking with
  | false => rfl
  | true => exact congrArg some ((hepoch' .taps).trans (hepoch .taps).symm)

/-! ## Detours -/

/-- The task enters the scope of the block around a wrapped action instead of its own. -/
theorem detour (h : s.Twins N D v) (hroom : N.SameRoom o scope' scope) (hD : D o = none)
    {inner : Nat} (hinner : inner ∈ N.inners) {sc : Scope} (hsc : s.scope? inner = some sc)
    (hfresh : sc.actions = .zero) (hunused : ∀ u d, D u = some d → d.inner ≠ inner)
    (tapBlocking : Bool) :
    (s.modifyScope inner (.enter tapBlocking)).Twins N
      (Function.update D o (some ⟨inner, v.ticket scope tapBlocking⟩))
      (v.modifyScope scope (.enter tapBlocking)) :=
  have hid := Scope.enter_id tapBlocking
  have hnumbered' : (s.modifyScope inner (.enter tapBlocking)).Numbered :=
    numbered_modifyScope hid h.numbered'
  have hnumbered : (v.modifyScope scope (.enter tapBlocking)).Numbered :=
    numbered_modifyScope hid h.numbered
  have hticket := h.ticket hroom tapBlocking
  have hscope := ticket_scope (s := v) scope tapBlocking
  { h with
    scopes :=
      { h.scopes with
        nodup' := hnumbered'.nodup
        nodup := hnumbered.nodup
        lt' := hnumbered'.lt
        lt := hnumbered.lt
        rooms := by
          intro u other' other hother
          obtain ⟨sc', sc, hsc', hsc, hsame⟩ := h.rooms hother
          have hkept : (s.modifyScope inner (.enter tapBlocking)).scope? other' = some sc' :=
            (scope?_modifyScope_ne hid (h.inner_ne hother hinner).symm).trans hsc'
          by_cases he : other = scope
          · obtain ⟨rfl, rfl⟩ := h.sameRoom_eq hroom hother he
            subst he
            have hmem : other ∈ v.scopes.map Scope.id :=
              List.mem_map.mpr ⟨sc, List.mem_of_find?_eq_some hsc, by simpa using List.find?_some hsc⟩
            refine ⟨sc', _, hkept, scope?_modifyScope_self hid hsc, fun tally ↦ ?_, hsame.epoch',
              fun tally ↦ (Scope.epoch_enter sc tally tapBlocking).trans (hsame.epoch tally)⟩
            have hmissing : Detour.missing ⟨inner, v.ticket other tapBlocking⟩ other tally =
                tally.share tapBlocking := by
              rw [Detour.missing, if_pos hscope, Ticket.share, ticket_tapEpoch h.numbered hmem]
            rw [Scope.pending_enter, hsame.pending, Detours.missing_of_none hD, Detours.missing_update,
              hmissing, Nat.add_zero]
          · refine ⟨sc', sc, hkept, (scope?_modifyScope_ne hid he).trans hsc, ?_⟩
            refine { hsame with pending := fun tally ↦ (hsame.pending tally).trans (congrArg _ ?_) }
            by_cases hu : u = o
            · have hne : (v.ticket scope tapBlocking).scope ≠ other := by
                rw [hscope]
                exact Ne.symm he
              rw [hu, Detours.missing_update, Detours.missing_of_none hD, Detour.missing, if_neg hne]
            · rw [Detours.missing_update_ne hu]
        taken := by
          intro u d hd
          by_cases hu : u = o
          · subst hu
            obtain rfl := Option.some.inj ((Function.update_self u _ D).symm.trans hd)
            exact ⟨hinner, ⟨scope', hscope.symm ▸ hroom⟩, hticket.first,
              sc.enter tapBlocking, scope?_modifyScope_self hid hsc, by
                cases tapBlocking <;> exact congrArg Counter.acquire hfresh⟩
          · have hd : D u = some d := (Function.update_of_ne hu _ D).symm.trans hd
            obtain ⟨sc, hsc, hone⟩ := h.counts hd
            exact { h.scopes.taken u d hd with
              counts := ⟨sc, (scope?_modifyScope_ne hid (hunused u d hd)).trans hsc, hone⟩ }
        distinct := by
          intro u w d e hd he hsame
          by_cases hu : u = o <;> by_cases hw : w = o
          · rw [hu, hw]
          · subst hu
            obtain rfl := Option.some.inj ((Function.update_self u _ D).symm.trans hd)
            exact absurd hsame.symm (hunused w e ((Function.update_of_ne hw _ D).symm.trans he))
          · subst hw
            obtain rfl := Option.some.inj ((Function.update_self w _ D).symm.trans he)
            exact absurd hsame (hunused u d ((Function.update_of_ne hu _ D).symm.trans hd))
          · exact h.scopes.distinct u w d e ((Function.update_of_ne hu _ D).symm.trans hd)
              ((Function.update_of_ne hw _ D).symm.trans he) hsame } }

/-- At the end of a detour both tickets are released. -/
theorem rejoin (h : s.Twins N D v) {d : Detour} (hD : D o = some d) :
    (s.modifyScope d.inner (.release d.taken)).Twins N (Function.update D o none)
      (v.modifyScope d.ticket.scope (.release d.ticket)) :=
  have hid' := Scope.release_id d.taken
  have hid := Scope.release_id d.ticket
  have hnumbered' : (s.modifyScope d.inner (.release d.taken)).Numbered :=
    numbered_modifyScope hid' h.numbered'
  have hnumbered : (v.modifyScope d.ticket.scope (.release d.ticket)).Numbered :=
    numbered_modifyScope hid h.numbered
  have htaken := h.scopes.taken o d hD
  { h with
    scopes :=
      { h.scopes with
        nodup' := hnumbered'.nodup
        nodup := hnumbered.nodup
        lt' := hnumbered'.lt
        lt := hnumbered.lt
        rooms := by
          intro u other' other hother
          obtain ⟨scope', hroom⟩ := htaken.room
          obtain ⟨sc', sc, hsc', hsc, hsame⟩ := h.rooms hother
          have hkept : (s.modifyScope d.inner (.release d.taken)).scope? other' = some sc' :=
            (scope?_modifyScope_ne hid' (h.inner_ne hother htaken.inner).symm).trans hsc'
          by_cases he : other = d.ticket.scope
          · obtain ⟨rfl, rfl⟩ := h.sameRoom_eq hroom hother he
            subst he
            refine ⟨sc', _, hkept, scope?_modifyScope_self hid hsc, fun tally ↦ ?_, hsame.epoch',
              fun tally ↦ (Scope.epoch_release sc tally d.ticket).trans (hsame.epoch tally)⟩
            rw [Scope.pending_release htaken.first hsame.epoch, hsame.pending, Detours.missing, hD,
              Detours.missing_of_none (Function.update_self u _ D)]
            dsimp only
            rw [Detour.missing, if_pos rfl, Nat.add_sub_cancel, Nat.add_zero]
          · refine ⟨sc', sc, hkept, (scope?_modifyScope_ne hid he).trans hsc, ?_⟩
            refine { hsame with pending := fun tally ↦ (hsame.pending tally).trans (congrArg _ ?_) }
            by_cases hu : u = o
            · rw [hu, Detours.missing_of_none (Function.update_self o _ D), Detours.missing, hD]
              exact if_neg (Ne.symm he)
            · rw [Detours.missing_update_ne hu]
        taken := by
          intro u e hu
          have hne : u ≠ o := by
            rintro rfl
            rw [Function.update_self] at hu
            cases hu
          have hu : D u = some e := (Function.update_of_ne hne _ D).symm.trans hu
          obtain ⟨sc, hsc, hone⟩ := h.counts hu
          have hother : e.inner ≠ d.inner := fun he ↦ hne (h.scopes.distinct u o e d hu hD he)
          exact { h.scopes.taken u e hu with
            counts := ⟨sc, (scope?_modifyScope_ne hid' hother).trans hsc, hone⟩ }
        distinct := by
          intro u w d e hd he
          have hne : ∀ {u d}, Function.update D o none u = some d → D u = some d := by
            intro u d hu
            by_cases hu' : u = o
            · rw [hu', Function.update_self] at hu
              cases hu
            · exact (Function.update_of_ne hu' _ D).symm.trans hu
          exact h.scopes.distinct u w d e (hne hd) (hne he) } }

/-! ## The stage -/

theorem present (h : s.Twins N D v) {f' f : Stage → Stage}
    (hf : ∀ {stage' stage}, Stage.Same N.ids stage' stage → Stage.Same N.ids (f' stage') (f stage)) :
    (s.present f').Twins N D (v.present f) := by
  unfold Session.present
  rw [if_neg (by simp [h.goes']), if_neg (by simp [h.goes])]
  exact { h with stage := hf h.stage }

theorem presentIf (h : s.Twins N D v) {f' f : Stage → Option Stage}
    (hf : Option.Rel (Stage.Same N.ids) (f' s.stage) (f v.stage)) :
    (s.presentIf f').Twins N D (v.presentIf f) := by
  unfold Session.presentIf
  rw [if_neg (by simp [h.goes']), if_neg (by simp [h.goes])]
  revert hf
  generalize f' s.stage = stage'
  generalize f v.stage = stage
  rintro (hstage | _)
  · exact { h with stage := hstage }
  · exact h

/-- A change is made in both playbacks or refused in both. -/
theorem accepts (h : s.Twins N D v) {f' f : Stage → Option Stage}
    (hf : Option.Rel (Stage.Same N.ids) (f' s.stage) (f v.stage)) : s.accepts f' = v.accepts f := by
  unfold Session.accepts
  rw [h.goes', h.goes]
  revert hf
  generalize f' s.stage = stage'
  generalize f v.stage = stage
  rintro (_ | _) <;> rfl

/-- The stamp of a cover or a shake is the next number. -/
theorem number (h : s.Twins N D v) {f' f : Stage → Stage}
    (hf : ∀ {stage' stage}, Stage.Same (N.meet s.serial v.serial).ids stage' stage →
      Stage.Same (N.meet s.serial v.serial).ids (f' stage') (f stage)) :
    (s.nextSerial.2.present f').Twins (N.meet s.serial v.serial) D (v.nextSerial.2.present f) :=
  Twins.present h.meet hf

theorem pushBacklog (h : s.Twins N D v) (line : Line) :
    (s.pushBacklog line).Twins N D (v.pushBacklog line) :=
  { h with backlog := congrArg (· ++ [line]) h.backlog }

theorem arm (h : s.Twins N D v) :
    { s with armed := s.armed + 1 }.Twins N D { v with armed := v.armed + 1 } :=
  { h with armed := congrArg (· + 1) h.armed }

theorem setDraws (h : s.Twins N D v) (n : Nat) :
    { s with draws := n }.Twins N D { v with draws := n } :=
  { h with draws := rfl }

/-! ## Sound -/

theorem call (h : s.Twins N D v) (c : AudioCall) : (s.call c).Twins N D (v.call c) := by
  have hcalls : s.calls ++ [(s.now, c)] = v.calls ++ [(v.now, c)] := by rw [h.calls, h.now]
  unfold Session.call
  by_cases hs : v.host.audible
  · rw [if_pos hs, if_pos (h.host ▸ hs)]
    exact { h with calls := hcalls }
  · rw [if_neg hs, if_neg (h.host ▸ hs)]
    exact h

theorem stopSound (h : s.Twins N D v) (channel : Channel) :
    (s.stopSound channel).Twins N D (v.stopSound channel) := by
  have hcall := h.call (.stop channel)
  unfold Session.stopSound
  dsimp only
  split
  · exact { hcall with voiceEnd := rfl }
  · exact hcall

theorem playSound (h : s.Twins N D v) (channel : Channel) (sound : Sound) (looping : Bool) :
    (s.playSound channel sound looping).Twins N D (v.playSound channel sound looping) := by
  have hcall := h.call (.play channel sound looping)
  cases channel with
  | voice =>
      cases sound with
      | blob blob =>
          refine { hcall with voiceEnd := ?_ }
          simp only [Session.playSound, voiceEndOf, hcall.host, hcall.now]
      | path path => exact hcall
  | bgm => exact hcall
  | se => exact hcall

theorem playVoice (h : s.Twins N D v) (path : String) :
    (s.playVoice path).2.Twins N D (v.playVoice path).2 := by
  unfold Session.playVoice
  rw [h.voices]
  split
  next blob _ => exact (h.stopSound .voice).playSound .voice (.blob blob) false
  next => exact h

theorem isSpeaking (h : s.Twins N D v) : s.isSpeaking = v.isSpeaking := by
  unfold Session.isSpeaking
  rw [h.voiceEnd, h.now]

/-! ## Taps -/

section taps

variable {id' id : Nat}

theorem isParked (h : s.Twins N D v) (hid : (id', id) ∈ N.ids) : s.isParked id' = v.isParked id :=
  (Weave.of_forall₂ (Q := fun _ ↦ False) h.taps).any
    (fun ht ↦ decide_eq_decide.mpr (h.ids.eq_iff ht.id hid)) False.elim

theorem unpark (h : s.Twins N D v) (hid : (id', id) ∈ N.ids) :
    (s.unpark id').Twins N D (v.unpark id) := by
  refine { h with taps := List.rel_filter (fun t' t ht ↦ ?_) h.taps }
  simp only [bne_iff_ne, ne_eq, h.ids.eq_iff ht.id hid]

theorem abandon (h : s.Twins N D v) (hid : (id', id) ∈ N.ids) :
    (s.abandon id').Twins N D (v.abandon id) := by
  refine { h with taps := List.rel_map (fun t' t ht ↦ ?_) h.taps }
  have hsame : (t'.id == id') = (t.id == id) := decide_eq_decide.mpr (h.ids.eq_iff ht.id hid)
  rw [hsame]
  split
  · exact { ht with live := rfl }
  · exact ht

theorem top (h : s.Twins N D v) :
    List.Forall₂ N.SamePark (s.taps.reverse.dropWhile fun t ↦ !t.live)
      (v.taps.reverse.dropWhile fun t ↦ !t.live) :=
  forall₂_dropWhile (List.forall₂_reverse_iff.mpr h.taps) fun ht ↦ congrArg not ht.live

theorem nextTap (h : s.Twins N D v) : s.nextTap.isSome = v.nextTap.isSome := by
  have htop := h.top
  unfold Session.nextTap
  revert htop
  generalize s.taps.reverse.dropWhile _ = l
  generalize v.taps.reverse.dropWhile _ = l'
  rintro (_ | _) <;> rfl

theorem takeTap (h : s.Twins N D v) : s.takeTap.Twins N D v.takeTap := by
  refine { h with taps := List.forall₂_reverse_iff.mpr ?_ }
  rw [← List.drop_one, ← List.drop_one]
  exact List.forall₂_drop 1 h.top

end taps

/-! ## Flags and time -/

theorem setAutoPlay (h : s.Twins N D v) (on : Bool) :
    (s.setAutoPlay on).Twins N D (v.setAutoPlay on) := by
  unfold Session.setAutoPlay
  rw [if_neg (by simp [h.goes']), if_neg (by simp [h.goes])]
  exact { h with autoPlay := rfl }

theorem setSlow (h : s.Twins N D v) :
    (s.setFastForward false).Twins N D (v.setFastForward false) := by
  unfold Session.setFastForward
  rw [if_neg (by simp [h.goes']), if_neg (by simp [h.goes])]
  exact { h with slow' := rfl, slow := rfl }

theorem setNow (h : s.Twins N D v) (time : Nat) :
    { s with now := time }.Twins N D { v with now := time } :=
  { h with now := rfl }

theorem cacheVoice (h : s.Twins N D v) (path : String) (content : Bytes) :
    { s with voices := s.voices.insert path content }.Twins N D
      { v with voices := v.voices.insert path content } :=
  { h with voices := congrArg (·.insert path content) h.voices }

end Twins

end Session

end Storyline
