import Storyline.Proofs.Counting
import Storyline.Proofs.Playback.Ledger
import Storyline.Proofs.Player.Reach

/-!
# Tickets are neither lost nor released twice

Whenever nothing is ready, the counts of every scope in use are those of the
suspended actions and settlings that came after its last reset.  This holds as
long as the clock can show when the voice of a line is to be looked at; a line
that is to be watched at a time beyond the clock takes its task down, and its
ticket is lost.
-/

namespace Storyline

/-- Whether a pause holds a ticket that counts in a scope. -/
def Pause.holds (sc : Scope) (q : Pause) : Bool :=
  match q.ending.ticket? with
  | some ticket => ticket.standing sc
  | none => false

/-- Whether a pause is that of a suspended action or of a settling, which wait for
a tap or a timer. -/
def Pause.isHolder (q : Pause) : Bool :=
  match q.wait with
  | .tap .. | .sleep .. => true
  | _ => false

/-- Whether a pause only ticks, for a shake or for fast-forward. -/
def Pause.isTicking (q : Pause) : Bool :=
  match q.wait with
  | .frame .. | .forward _ => true
  | _ => false

theorem Pause.Fits.holder {kind : Kind} {q : Pause} (h : q.Fits kind) :
    q.ending.ticket?.isSome = q.isHolder := by
  obtain ⟨wait, ending, scopes⟩ := q
  cases kind <;> cases wait <;> simp_all [Pause.Fits, Pause.isHolder, Ending.ticket?]
  all_goals
    obtain ⟨t, ht, -⟩ := h
    simp [ht]

/-- A ticket is to be tapped if and only if its holder waits for a tap. -/
theorem Pause.Fits.tapped {kind : Kind} {q : Pause} (h : q.Fits kind) :
    q.tickets.countP (fun t ↦ t.tapEpoch.isSome) = q.parks.length := by
  obtain ⟨wait, ending, scopes⟩ := q
  cases kind <;> cases wait <;>
    simp_all [Pause.Fits, Pause.tickets, Pause.parks, Pause.park?, Ending.ticket?]
  all_goals
    obtain ⟨t, ht, htap, -⟩ := h
    simp [ht, htap]

theorem Pause.Fits.tappable {kind : Kind} {q : Pause} (h : q.Fits kind) (sc : Scope) :
    q.tickets.countP (fun t ↦ t.tappable sc) =
      if q.holds sc && q.park?.isSome then 1 else 0 := by
  obtain ⟨wait, ending, scopes⟩ := q
  cases kind <;> cases wait <;>
    simp_all [Pause.Fits, Pause.tickets, Pause.holds, Pause.park?, Ending.ticket?]
  all_goals
    obtain ⟨t, ht, htap, -⟩ := h
    simp [ht, htap, Ticket.tappable, List.countP_cons]

/-- A pause keeps the scope of its ticket in use. -/
theorem Pause.Fits.keeps {kind : Kind} {q : Pause} (h : q.Fits kind) {t : Ticket}
    (ht : t ∈ q.tickets) : t.scope ∈ q.scopes := by
  obtain ⟨wait, ending, scopes⟩ := q
  cases kind <;> cases wait <;>
    simp_all [Pause.Fits, Pause.tickets, Ending.ticket?]

theorem Pause.Fits.timeline {q : Pause} (h : q.Fits .timeline) : ¬q.isTicking = true := by
  obtain ⟨wait, ending, scopes⟩ := q
  cases wait <;> simp_all [Pause.Fits, Pause.isTicking]

/-- A ticker keeps no scope in use. -/
theorem Task.Fits.scopes {s : Session} {t : Task} (h : t.Fits .ticker s) (hscope : t.scope = none) :
    t.scopes = [] := by
  have hagenda : t.agenda.flatMap Errand.scopes = [] := by
    refine List.flatMap_eq_nil_iff.mpr fun e he ↦ ?_
    have hfits := h.agenda e he
    cases e <;> first | rfl | exact hfits.elim
  have hpauses : t.pauses.flatMap Pause.scopes = [] := by
    refine List.flatMap_eq_nil_iff.mpr fun q hq ↦ ?_
    have hfits := h.pauses q hq
    obtain ⟨wait, ending, scopes⟩ := q
    cases wait <;> first | exact hfits.2 | exact hfits.elim
  simp [Task.scopes, hscope, hagenda, hpauses]

theorem Pause.standing (q : Pause) (sc : Scope) :
    q.tickets.countP (fun t ↦ t.standing sc) = if q.holds sc then 1 else 0 := by
  unfold Pause.tickets Pause.holds
  cases q.ending.ticket? <;> simp [List.countP_cons]

namespace Player

open Playback

def pauses (p : Playback) : List Pause := p.tasks.flatMap Task.pauses

/-- The counts of the scopes in use, against the suspended actions. -/
structure Accounted (p : Playback) : Prop where
  /-- The tickets are held where a tap or a timer is waited for, and no such wait
  is over. -/
  holders : ∀ q ∈ pauses p, q.ending.ticket?.isSome = q.isHolder ∧ q.wait.Settled p.session
  outstanding : ∀ sc ∈ p.liveScopes [root],
    sc.outstanding = (pauses p).countP (fun q ↦ q.holds sc)
  outstandingTaps : ∀ sc ∈ p.liveScopes [root],
    sc.outstandingTaps = (pauses p).countP (fun q ↦ q.holds sc && q.park?.isSome)
  taps_le : ((p.liveScopes [root]).map Scope.outstandingTaps).sum ≤ p.session.taps.length
  taps_eq : p.session.skips = 0 →
    ((p.liveScopes [root]).map Scope.outstandingTaps).sum = p.session.taps.length
  /-- When only tickers are left, nothing is outstanding. -/
  spent : (∀ t ∈ p.tasks, t.scope = none ∧ ∀ q ∈ t.pauses, q.isTicking = true) →
    p.session.taps = [] ∧ ∃ sc, p.liveScopes [root] = [sc] ∧ sc.id = root ∧
      sc.outstanding = 0 ∧ sc.outstandingTaps = 0

section quiet

variable {p : Playback}

/-- At rest all tickets are held by pauses. -/
theorem atRest_tickets (h : p.Ledger .timeline [root] [] []) (ho : AtRest p) (hq : p.queue = []) :
    p.tickets = (pauses p).flatMap Pause.tickets ∧ p.parks = (pauses p).flatMap Pause.parks := by
  have hturn : p.turn = .none := ho.idle rfl
  have htask : ∀ t ∈ p.tasks, t.tickets = t.pauses.flatMap Pause.tickets := by
    intro t ht
    obtain ⟨kind, hfits⟩ := h.tasks t ht
    have hne := (ho.resting t ht (by simp) (by simp [hq])).1
    rw [Task.tickets, List.flatMap_eq_nil_iff.mpr (hfits.spent hne), List.append_nil]
  constructor
  · simp only [Playback.tickets, hturn, Turn.none, List.flatMap_nil, List.nil_append, pauses,
      List.flatMap_assoc]
    rw [List.flatMap_def, List.flatMap_def, List.map_congr_left htask]
  · simp only [Playback.parks, hturn, Turn.none, List.flatMap_nil, List.nil_append, pauses,
      List.flatMap_assoc]
    rfl

/-- The parked actions are those that pauses wait for. -/
theorem atRest_taps (h : p.Ledger .timeline [root] [] []) (ho : AtRest p) (hq : p.queue = []) :
    p.session.taps.length = p.parks.length := by
  have hbooks := h.books
  simp only [List.nil_append] at hbooks
  have hparked : p.parks ⊆ p.session.taps.map Parked.id := by
    intro id hid
    rw [(atRest_tickets h ho hq).2] at hid
    obtain ⟨q, hmem, hid⟩ := List.mem_flatMap.mp hid
    obtain ⟨t, ht, hqt⟩ := List.mem_flatMap.mp hmem
    have hsettled := (ho.resting t ht (by simp) (by simp [hq])).2 q hqt
    obtain ⟨wait, ending, scopes⟩ := q
    cases wait with
    | tap park kind auto =>
        obtain rfl : id = park := by simpa [Pause.parks, Pause.park?] using hid
        have hparked : p.session.isParked id = true := by cases auto <;> exact hsettled.2.1
        obtain ⟨x, hx, he⟩ := List.any_eq_true.mp hparked
        exact List.mem_map.mpr ⟨x, hx, by simpa using he⟩
    | _ => simp [Pause.parks, Pause.park?] at hid
  have hle := List.Nodup.length_le_of_subset hbooks.taps_nodup hbooks.taps_subset
  have hge := List.Nodup.length_le_of_subset hbooks.parks_nodup hparked
  rw [List.length_map] at hle hge
  exact Nat.le_antisymm hle hge

theorem countP_tappable_le {scopes : List Scope} (hnodup : (scopes.map Scope.id).Nodup)
    (t : Ticket) :
    scopes.countP (fun sc ↦ t.tappable sc) ≤ if t.tapEpoch.isSome then 1 else 0 := by
  split
  next =>
    have hcount := List.nodup_iff_count.mp hnodup t.scope
    rw [List.count_eq_countP, List.countP_map] at hcount
    refine Nat.le_trans (List.countP_mono_left fun sc _ hsc ↦ ?_) hcount
    simp only [Ticket.tappable, Ticket.standing, Bool.and_eq_true, beq_iff_eq] at hsc
    simp [hsc.1.1]
  next hnone =>
    refine Nat.le_of_eq (List.countP_eq_zero.mpr fun sc _ ↦ ?_)
    simp [Ticket.tappable, hnone]

theorem eq_singleton {scopes : List Scope} {sc : Scope} (hnodup : (scopes.map Scope.id).Nodup)
    (hsc : sc ∈ scopes) (h : ∀ other ∈ scopes, other = sc) : scopes = [sc] := by
  match scopes, hnodup with
  | [only], _ => rw [h only (by simp)]
  | first :: second :: rest, hnodup =>
      have hne : first.id ≠ second.id := by
        intro he
        simp [he] at hnodup
      exact absurd (by rw [h first (by simp), h second (by simp)]) hne

theorem liveScopes_sublist (others : List Nat) (p : Playback) :
    (p.liveScopes others).Sublist p.session.scopes := List.filter_sublist

theorem accounted (h : p.Ledger .timeline [root] [] []) (ho : AtRest p) (hq : p.queue = []) :
    Accounted p := by
  obtain ⟨htickets, hparks⟩ := atRest_tickets h ho hq
  have hbooks := h.books
  simp only [List.nil_append] at hbooks
  have hfits : ∀ q ∈ pauses p, ∃ kind, q.Fits kind := by
    intro q hmem
    obtain ⟨t, ht, hqt⟩ := List.mem_flatMap.mp hmem
    obtain ⟨kind, hfits⟩ := h.tasks t ht
    exact ⟨kind, hfits.pauses q hqt⟩
  have hsub := liveScopes_sublist [root] p
  have hnodup : ((p.liveScopes [root]).map Scope.id).Nodup :=
    hbooks.numbered.nodup.sublist (hsub.map _)
  -- the sum over the scopes, ticket by ticket
  have hsum : ((p.liveScopes [root]).map Scope.outstandingTaps).sum =
      (p.tickets.map (fun t ↦ (p.liveScopes [root]).countP (fun sc ↦ t.tappable sc))).sum := by
    rw [← sum_countP_comm (p.liveScopes [root]) p.tickets (fun sc t ↦ t.tappable sc)]
    exact congrArg List.sum (List.map_congr_left fun sc hsc ↦
      (hbooks.balanced sc (hsub.subset hsc)).taps)
  have htaps : p.session.taps.length =
      (p.tickets.map (fun t ↦ if t.tapEpoch.isSome then 1 else 0)).sum := by
    rw [atRest_taps h ho hq, hparks, htickets, ← countP_eq_sum, List.length_flatMap,
      List.countP_flatMap]
    refine congrArg List.sum (List.map_congr_left fun q hmem ↦ ?_)
    obtain ⟨kind, hq⟩ := hfits q hmem
    exact hq.tapped.symm
  constructor
  case holders =>
    intro q hmem
    obtain ⟨kind, hqfits⟩ := hfits q hmem
    obtain ⟨t, ht, hqt⟩ := List.mem_flatMap.mp hmem
    exact ⟨hqfits.holder, (ho.resting t ht (by simp) (by simp [hq])).2 q hqt⟩
  case outstanding =>
    intro sc hsc
    rw [Scope.outstanding, (hbooks.balanced sc (hsub.subset hsc)).actions, htickets]
    exact countP_flatMap_eq fun q _ ↦ q.standing sc
  case outstandingTaps =>
    intro sc hsc
    rw [Scope.outstandingTaps, (hbooks.balanced sc (hsub.subset hsc)).taps, htickets]
    refine countP_flatMap_eq fun q hmem ↦ ?_
    obtain ⟨kind, hq⟩ := hfits q hmem
    exact hq.tappable sc
  case taps_le =>
    rw [hsum, htaps]
    exact sum_map_le fun t _ ↦ countP_tappable_le hnodup t
  case taps_eq =>
    intro hskips
    rw [hsum, htaps]
    refine congrArg List.sum (List.map_congr_left fun t ht ↦ ?_)
    refine Nat.le_antisymm (countP_tappable_le hnodup t) ?_
    split
    next htap =>
      -- the scope of the ticket is in use, and has never been reset
      obtain ⟨sc, hsc, hid, hpast, -⟩ := hbooks.issued t ht
      have hepoch := hbooks.unreset hskips sc hsc
      rw [htickets] at ht
      obtain ⟨q, hmem, hqt⟩ := List.mem_flatMap.mp ht
      obtain ⟨kind, hqfits⟩ := hfits q hmem
      obtain ⟨task, htask, hqtask⟩ := List.mem_flatMap.mp hmem
      have hlive : sc ∈ p.liveScopes [root] := by
        refine List.mem_filter.mpr ⟨hsc, ?_⟩
        simp only [List.contains_iff_mem, hid]
        refine List.mem_append_right _ (List.mem_flatMap.mpr ⟨task, htask, ?_⟩)
        exact List.mem_append_right _ (List.mem_flatMap.mpr ⟨q, hqtask, hqfits.keeps hqt⟩)
      refine List.countP_pos_iff.mpr ⟨sc, hlive, ?_⟩
      simp only [Ticket.tappable, Ticket.standing, Bool.and_eq_true, beq_iff_eq]
      exact ⟨⟨hid.symm, by omega⟩, htap⟩
    next => exact Nat.zero_le _
  case spent =>
    intro hover
    have hticker : ∀ t ∈ p.tasks, t.Fits .ticker p.session := by
      intro t ht
      obtain ⟨kind, hfits⟩ := h.tasks t ht
      cases kind with
      | ticker => exact hfits
      | timeline =>
          obtain ⟨q, hqt⟩ := List.exists_mem_of_ne_nil _ (ho.resting t ht (by simp) (by simp [hq])).1
          exact absurd ((hover t ht).2 q hqt) (hfits.pauses q hqt).timeline
    have hpauses : ∀ q ∈ pauses p, q.Fits .ticker := by
      intro q hmem
      obtain ⟨t, ht, hqt⟩ := List.mem_flatMap.mp hmem
      exact (hticker t ht).pauses q hqt
    have hnone : p.tickets = [] := by
      rw [htickets]
      exact List.flatMap_eq_nil_iff.mpr fun q hq ↦ (hpauses q hq).ticker.1
    have hnopark : p.parks = [] := by
      rw [hparks]
      exact List.flatMap_eq_nil_iff.mpr fun q hq ↦ (hpauses q hq).ticker.2
    have hunused : p.tasks.flatMap Task.scopes = [] :=
      List.flatMap_eq_nil_iff.mpr fun t ht ↦ (hticker t ht).scopes (hover t ht).1
    obtain ⟨sc, hsc, hid⟩ := List.mem_map.mp (h.known (List.mem_singleton.mpr rfl))
    refine ⟨?_, sc, ?_, hid, ?_, ?_⟩
    · have hlen := atRest_taps h ho hq
      rw [hnopark] at hlen
      exact List.length_eq_zero_iff.mp hlen
    · refine eq_singleton hnodup (List.mem_filter.mpr ⟨hsc, by simp [hid]⟩) fun other hother ↦ ?_
      obtain ⟨hmem, hused⟩ := List.mem_filter.mp hother
      refine hbooks.numbered.eq_of_id hmem hsc ?_
      simpa [hunused, hid] using hused
    · rw [Scope.outstanding, (hbooks.balanced sc hsc).actions, hnone]
      rfl
    · rw [Scope.outstandingTaps, (hbooks.balanced sc hsc).taps, hnone]
      rfl

end quiet

/-- The commands of a run in which the player is neither stopped nor dropped. -/
def Command.continues : Command → Bool
  | .stop | .drop => false
  | _ => true

/-- Until the given time the ledger is kept. -/
structure Kept (config : Config) (time : Nat) (p : Playback) : Prop where
  config : p.session.config = config
  ledger : p.session.now ≤ time → p.Ledger .timeline [root] [] []

/-- A move of the clock keeps the ledger, as far as the clock can show the time. -/
theorem Kept.later {config : Config} {time next : Nat} {p q : Playback} (h : Kept config time p)
    (hidle : p.turn = .none)
    (hnext : p.session.now ≤ next) (hsession : q.session = { p.session with now := next })
    (htasks : q.tasks = p.tasks) (hturn : q.turn = p.turn) : Kept config time q := by
  have hconfig : q.session.config = config := by
    rw [hsession]
    exact h.config
  refine ⟨hconfig, fun hnow ↦ ?_⟩
  have hnow' : q.session.now = next := by rw [hsession]
  exact (h.ledger (Nat.le_trans hnext (hnow' ▸ hnow))).later hidle hsession htasks hturn

/-- What stirs the playback without moving the clock. -/
theorem Kept.stirs {config : Config} {time : Nat} {p q : Playback} (h : Kept config time p)
    (hst : p.Stirs q)
    (hbooks : ∀ {ts : List Ticket} {parks : List Nat}, p.session.Books ts parks →
      q.session.Books ts parks) : Kept config time q where
  config := hst.config.trans h.config
  ledger := by
    intro hnow
    rw [hst.now] at hnow
    have hledger := h.ledger hnow
    exact hledger.stirs hst (hbooks hledger.books)

/-- The ticker of fast-forward and the main timeline hold no tickets yet. -/
theorem ledger_launch {p : Playback} {hand : List Ticket} {parking : List Nat} (actions : List Action)
    (h : p.Ledger .timeline [root] hand parking) :
    (launch actions p).Ledger .timeline [root] hand parking := by
  have htimeline : ∀ e ∈ timeline actions, e.tickets = [] ∧
      e.Fits .timeline (({ p with status := .playing } : Playback).spawn none
        [.fastForward]).session := by
    intro e he
    rcases List.mem_append.mp he with he | he
    · obtain ⟨a, -, rfl⟩ := List.mem_map.mp he
      refine ⟨rfl, ?_⟩
      unfold spawn
      split <;> exact h.known List.mem_cons_self
    · rw [List.mem_singleton.mp he]
      exact ⟨rfl, rfl⟩
  have hplaying : ({ p with status := .playing } : Playback).Ledger .timeline [root] hand parking :=
    { h with }
  have hticker : (({ p with status := .playing } : Playback).spawn none [.fastForward]).Ledger
      .timeline [root] hand parking :=
    Ledger.spawn none hplaying ⟨.ticker, by simp [Errand.Fits]⟩ (by simp)
  refine Ledger.spawn (some root) ?_ ⟨.timeline, fun e he ↦ (htimeline e he).2⟩
    fun e he ↦ (htimeline e (List.mem_of_mem_tail he)).1
  rw [List.flatMap_eq_nil_iff.mpr fun e he ↦ (htimeline e he).1]
  exact hticker

theorem Step.kept {actions : List Action} {config : Config} {time : Nat} {p q : Playback}
    (hpoll : (config.voicePoll.period.tickFrom time 1).isSome = true)
    (hs : Step actions (fun c ↦ c.continues = true) p q) (hrest : AtRest p)
    (h : Kept config time p) : Kept config time q := by
  cases hs with
  | turn hq =>
      have hmoment := (hrest.runTask hq).moment
      refine ⟨(congrArg Moment.config hmoment).trans h.config, fun hnow ↦ ?_⟩
      have hsame := congrArg Moment.now hmoment
      have hbefore := Nat.le_trans (Nat.le_of_eq hsame.symm) hnow
      refine (h.ledger hbefore).runTask hrest hq ?_
      rw [show p.session.moment.config = config from h.config]
      exact Duration.tickFrom_isSome hbefore hpoll
  | move hq hnext =>
      exact h.later (hrest.idle rfl) (Nat.le_of_lt (lt_nextDue hnext)) (by simp only [moveTo, wakeAll_eq]; rfl)
        (by simp only [moveTo, wakeAll_eq]; rfl) (by simp only [moveTo, wakeAll_eq]; rfl)
  | rest hq hle hnext => exact h.later (hrest.idle rfl) hle rfl rfl rfl
  | start hc hrun hs =>
      have hsession := launch_session actions p
      refine ⟨hsession ▸ h.config, fun hnow ↦ ?_⟩
      exact ledger_launch actions (h.ledger (hsession ▸ hnow))
  | next hc =>
      refine h.stirs p.stirs_tap fun hb ↦ ?_
      rw [tap_eq_touch, touch_session]
      exact hb.takeTap
  | autoPlay on hc =>
      refine h.stirs (p.stirs_setAutoPlay on) fun hb ↦ ?_
      rw [setAutoPlay_eq_touch, touch_session, Session.setAutoPlay, if_neg (by simp [hb.running])]
      exact hb.carry rfl rfl rfl (Nat.le_refl _) (List.Sublist.refl _)
  | fastForward on hc =>
      refine h.stirs (p.stirs_setFastForward on) fun hb ↦ ?_
      rw [setFastForward_eq_touch, touch_session, Session.setFastForward,
        if_neg (by simp [hb.running])]
      exact hb.carry rfl rfl rfl (Nat.le_refl _) (List.Sublist.refl _)
  | cacheVoice path content hc =>
      exact h.stirs (.of_update (Session.carries_voices _)) fun hb ↦
        hb.carry rfl rfl rfl (Nat.le_refl _) (List.Sublist.refl _)
  | stop hc => rcases hc with hc | hc <;> cases hc

theorem kept_new (actions : List Action) {config : Config} (host : Host) (voices : VoiceCache)
    {time : Nat} : Kept config time (new actions config host voices).playback := by
  refine ⟨rfl, fun hnow ↦ ?_⟩
  constructor
  case books =>
    exact
      { running := rfl
        numbered := (new_atRest actions config host voices).numbered
        balanced := by
          intro sc hsc
          rw [List.mem_singleton.mp hsc]
          exact ⟨rfl, rfl, rfl⟩
        issued := by simp [new, Playback.new, Playback.tickets, Turn.none]
        unreset := by
          intro _ sc hsc
          rw [List.mem_singleton.mp hsc]
          rfl
        parks_nodup := .nil
        parks_lt := by simp [new, Playback.new, Playback.parks, Turn.none]
        taps_nodup := .nil
        taps_subset := List.nil_subset _ }
  case known => exact List.Subset.refl _
  case failed => exact fun hf ↦ by cases hf
  case pauses => simp [new, Playback.new, Turn.none]
  case agenda => simp [new, Playback.new, Turn.none]
  case whole => simp [new, Playback.new]
  case tasks => simp [new, Playback.new]

/-- As long as the clock can show when a voice is to be looked at, the tickets
are accounted for. -/
theorem accounted_of_poll {actions : List Action} {config : Config} {host : Host}
    {voices : VoiceCache} {cs : List (Bool × Command)} {time : Nat}
    (hpoll : (config.voicePoll.period.tickFrom time 1).isSome = true)
    (hcs : ∀ c ∈ cs, c.2.continues = true) :
    let p := ((new actions config host voices).follow cs).playback
    p.session.now ≤ time → p.queue = [] → Accounted p := by
  intro p hnow hq
  obtain ⟨hkept, hrest⟩ := follow_induct hcs (kept_new actions host voices)
    fun q r hrest h hs ↦ hs.kept hpoll hrest h
  exact accounted (hkept.ledger hnow) hrest hq

/-! ## A voice that cannot be watched -/

/-- Playing by itself, a task fails that parks a line at a time when its voice
cannot be watched. -/
theorem park_fails {p : Playback} {ending : Ending} {scopes : List Nat}
    (hc : p.session.cancelled = false) (hauto : p.session.autoPlay = true)
    (hpoll : p.session.config.voicePoll.period.tickFrom p.session.now 1 = none) :
    p.park .voice ending scopes =
      ((p.update (fun s ↦ s.park.2)).leave
        ⟨.tap p.session.serial .voice .off, ending, scopes⟩).updateTurn
          (fun t ↦ { t with failed := true }) := by
  have hlook : (p.update (fun s ↦ s.park.2)).look (.tap p.session.serial .voice .off) =
      (p.update (fun s ↦ s.park.2), .fails) := by
    simp [look, lookAtTap, beginLingering, update, Session.park, Session.isParked, hc, hauto, hpoll]
  unfold Playback.park
  simp only [suspend]
  rw [show p.session.park.1 = p.session.serial from rfl, hlook]

/-- While there are no tasks, nothing but time passes. -/
theorem advance_idle {p : Playback} (hq : p.queue = []) (htasks : p.tasks = []) (ms : Nat) :
    p.advance ms = p.update (fun s ↦ { s with now := p.session.now + ms }) := by
  unfold advance settle
  rw [runReady_idle hq]
  cases ms with
  | zero => rfl
  | succ ms => simp [passTime, nextDue, timers, htasks]

def watchedLine : Line := ⟨"Hello.", [1], ["Ann"], some "hello"⟩

/-- A line with a voice. -/
def watched : List Action := [.cue (.talk watchedLine)]

def watchedVoices : VoiceCache := ⟨[("hello", [0])], []⟩

def quietHost : Host := ⟨true, false, none, fun _ _ ↦ .zero⟩

/-- The line is played by itself, from the given time on. -/
def watching (config : Config) (time : Nat) : Player :=
  (new watched config quietHost watchedVoices).follow
    [(false, .autoPlay true), (false, .advance time), (true, .start)]

/-- The ticker of fast-forward has had its turn, and the line has not been said. -/
def aboutToSay (config : Config) (time : Nat) : Playback where
  session := { (Session.new config quietHost watchedVoices) with
    now := time, serial := 1, scopes := [.fresh root none], autoPlay := true }
  status := .playing
  tasks := [⟨0, true, false, none, false, [], [⟨.forward none, .nothing, []⟩]⟩,
    ⟨1, true, false, some root, false, timeline watched, []⟩]
  spawned := 2
  queue := []
  outcomes := []
  dispatches := []
  turn := .none

/-- The main timeline fails, and its ticket is not released. -/
theorem runTask_aboutToSay {config : Config} {time : Nat}
    (hpoll : config.voicePoll.period.tickFrom time 1 = none) :
    let p := runTask 1 (aboutToSay config time)
    p.session.scopes = [⟨root, none, ⟨1, 0⟩, ⟨1, 0⟩⟩] ∧ p.session.now = time ∧ p.queue = [] ∧
      pauses p = [⟨.forward none, .nothing, []⟩] := by
  simp only [runTask, task?, aboutToSay, List.find?_cons, Nat.reduceBEq, Bool.false_eq_true, if_false]
  simp [takeTurn, modifyTask, updateTurn, Turn.ofTask, timeline, walk, watched, proceed,
    Turn.isFree, begin, perform, note, isOver, performCue, announce, update, Session.present,
    Session.new, enter, raise, wakeAll, Task.heeds, Pause.heeds, Wait.heeds, Session.modifyScope,
    Scope.fresh, Scope.enter, Scope.modify, Counter.acquire, Counter.zero, Session.ticket,
    Session.scope?, Scope.ticket, Cue.isTapBlocking, talk, isVoiced, watchedLine, watchedVoices,
    VoiceCache.contains, VoiceCache.get?, Session.pushBacklog, speak, Session.playVoice,
    Session.stopSound, Session.playSound, Session.call, quietHost]
  rw [park_fails rfl rfl hpoll]
  simp [leave, update, Session.park, updateTurn, endTurn, endTask, removeTask, abandonAll,
    Pause.park?, Session.abandon, pauses]

theorem step_start {b : Playback} (actions : List Action) (hrun : b.session.host.canRun = true)
    (hs : b.status = .notStarted) :
    (Player.step true .start ⟨actions, b, false⟩).1.playback = (launch actions b).settle := by
  simp [step, obey, obeyStart, start, status, mapPlayback, hrun, hs]

theorem watching_eq {config : Config} {time : Nat}
    (hq : (runTask 1 (aboutToSay config time)).queue = []) :
    (watching config time).playback = runTask 1 (aboutToSay config time) := by
  obtain ⟨b, hb⟩ : ∃ b, b =
    ((new watched config quietHost watchedVoices).playback).setAutoPlay true := ⟨_, rfl⟩
  have hstart : (watching config time).playback =
      (Player.step true .start ⟨watched, b.advance time, false⟩).1.playback := by
    rw [hb]
    rfl
  have hidle : b.advance time = b.update (fun s ↦ { s with now := time }) := by
    rw [advance_idle (by rw [hb]; rfl) (by rw [hb]; rfl), hb]
    exact congrArg (fun now ↦ update (fun s ↦ { s with now := now }) _) (Nat.zero_add time)
  rw [hstart, hidle, step_start watched (by rw [hb]; rfl) (by rw [hb]; rfl), hb, settle]
  -- there are turns enough for the two tasks
  obtain ⟨n, hn⟩ : ∃ n, (launch watched (update (fun s ↦ { s with now := time })
    ((new watched config quietHost watchedVoices).playback.setAutoPlay true))).turnBound = n + 2 :=
      ⟨_, rfl⟩
  rw [hn]
  exact runReady_idle hq n

/-- A line whose voice cannot be watched loses its ticket. -/
theorem not_accounted_watching {config : Config} {time : Nat}
    (hpoll : config.voicePoll.period.tickFrom time 1 = none) :
    (watching config time).playback.session.now = time ∧
      (watching config time).playback.queue = [] ∧ ¬Accounted (watching config time).playback := by
  obtain ⟨hscopes, hnow, hq, hpauses⟩ := runTask_aboutToSay hpoll
  rw [watching_eq hq]
  refine ⟨hnow, hq, fun h ↦ ?_⟩
  have hcount := h.outstanding ⟨root, none, ⟨1, 0⟩, ⟨1, 0⟩⟩
    (List.mem_filter.mpr ⟨by simp [hscopes], by simp⟩)
  rw [hpauses] at hcount
  cases hcount

/-- The tickets are accounted for in every run up to a given time if and only if
the clock can show when a voice is to be looked at that begins at this time. -/
theorem accounted_iff (config : Config) (time : Nat) :
    (∀ (actions : List Action) (host : Host) (voices : VoiceCache) (cs : List (Bool × Command)),
      (∀ c ∈ cs, c.2.continues = true) →
        let p := ((new actions config host voices).follow cs).playback
        p.session.now ≤ time → p.queue = [] → Accounted p) ↔
      (config.voicePoll.period.tickFrom time 1).isSome = true := by
  constructor
  · intro h
    refine Option.isSome_iff_ne_none.mpr fun hpoll ↦ ?_
    obtain ⟨hnow, hq, hnot⟩ := not_accounted_watching hpoll
    exact hnot (h watched quietHost watchedVoices
      [(false, .autoPlay true), (false, .advance time), (true, .start)] (by simp [Command.continues])
      (Nat.le_of_eq hnow) hq)
  · intro hpoll actions host voices cs hcs
    exact accounted_of_poll hpoll hcs

/-- Settings with which a voice is looked at after ten billion billion seconds. -/
def patient : Config := { Config.standard with voicePoll := ⟨10 ^ 28⟩ }

/-- Not every run accounts for its tickets. -/
theorem patient_loses_ticket :
    ¬∀ (config : Config) (actions : List Action) (host : Host) (voices : VoiceCache)
      (cs : List (Bool × Command)), (∀ c ∈ cs, c.2.continues = true) →
        let p := ((new actions config host voices).follow cs).playback
        p.queue = [] → Accounted p := by
  intro h
  obtain ⟨-, hq, hnot⟩ := not_accounted_watching
    (show patient.voicePoll.period.tickFrom 0 1 = none by decide)
  exact hnot (h patient watched quietHost watchedVoices
    [(false, .autoPlay true), (false, .advance 0), (true, .start)] (by decide) hq)

end Player

end Storyline
