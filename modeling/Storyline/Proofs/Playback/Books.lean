import Storyline.Proofs.Playback.Stirring

/-!
# The books of a session

The counts of the scopes against the tickets that are out, and the stack of
parked actions against those who wait for a tap.  The books are kept for given
tickets and parked actions, wherever these are held; every operation of a
session keeps them, with one ticket more or less.
-/

namespace Storyline

/-! ## Counters and scopes -/

namespace Counter

@[simp] theorem release_epoch (epoch : Nat) (c : Counter) : (c.release epoch).epoch = c.epoch := by
  unfold release
  split <;> rfl

theorem release_pending (epoch : Nat) (c : Counter) :
    (c.release epoch).pending = if c.epoch = epoch then c.pending - 1 else c.pending := by
  unfold release counts
  by_cases he : c.epoch = epoch <;> by_cases hp : 0 < c.pending <;> simp [he, hp] <;> omega

end Counter

/-- Whether a ticket counts in a scope at present: it was given out there after
the last reset. -/
def Ticket.standing (sc : Scope) (t : Ticket) : Bool :=
  t.scope == sc.id && t.epoch == sc.actions.epoch

/-- Whether a ticket counts in a scope and has to be tapped. -/
def Ticket.tappable (sc : Scope) (t : Ticket) : Bool := t.standing sc && t.tapEpoch.isSome

namespace Scope

/-- The counts of a scope are those of the tickets that stand. -/
structure Balanced (ts : List Ticket) (sc : Scope) : Prop where
  actions : sc.actions.pending = ts.countP (fun t ↦ t.standing sc)
  taps : sc.taps.pending = ts.countP (fun t ↦ t.tappable sc)
  level : sc.taps.epoch = sc.actions.epoch

theorem enter_id (tapBlocking : Bool) (sc : Scope) : (sc.enter tapBlocking).id = sc.id := by
  cases tapBlocking <;> rfl

theorem enter_epoch (tapBlocking : Bool) (sc : Scope) :
    (sc.enter tapBlocking).actions.epoch = sc.actions.epoch := by
  cases tapBlocking <;> rfl

theorem release_id (t : Ticket) (sc : Scope) : (sc.release t).id = sc.id := by
  unfold release
  cases t.tapEpoch <;> rfl

theorem release_actions (t : Ticket) (sc : Scope) :
    (sc.release t).actions = sc.actions.release t.epoch := by
  unfold release
  cases t.tapEpoch <;> rfl

theorem release_taps (t : Ticket) (sc : Scope) :
    (sc.release t).taps = match t.tapEpoch with
      | some epoch => sc.taps.release epoch
      | none => sc.taps := by
  unfold release
  cases t.tapEpoch <;> rfl

namespace Balanced

variable {ts ts' : List Ticket} {t : Ticket} {sc : Scope}

theorem perm (h : sc.Balanced ts) (hts : ts.Perm ts') : sc.Balanced ts' :=
  ⟨h.actions.trans (hts.countP_eq _), h.taps.trans (hts.countP_eq _), h.level⟩

theorem other (hne : t.scope ≠ sc.id) : sc.Balanced (t :: ts) ↔ sc.Balanced ts := by
  have hnot : t.standing sc = false := by simp [Ticket.standing, hne]
  have hnot' : t.tappable sc = false := by simp [Ticket.tappable, hnot]
  constructor <;> rintro ⟨hactions, htaps, hlevel⟩
  · exact ⟨by simpa [List.countP_cons, hnot] using hactions,
      by simpa [List.countP_cons, hnot'] using htaps, hlevel⟩
  · exact ⟨by simpa [List.countP_cons, hnot] using hactions,
      by simpa [List.countP_cons, hnot'] using htaps, hlevel⟩

theorem enter (h : sc.Balanced ts) (tapBlocking : Bool) :
    (sc.enter tapBlocking).Balanced (sc.ticket tapBlocking :: ts) := by
  obtain ⟨hactions, htaps, hlevel⟩ := h
  cases tapBlocking <;> constructor <;>
    simp_all [Scope.enter, Scope.modify, Counter.acquire, Scope.ticket, Ticket.standing,
      Ticket.tappable]

theorem release (h : sc.Balanced (t :: ts)) (hid : t.scope = sc.id)
    (heven : ∀ epoch, t.tapEpoch = some epoch → epoch = t.epoch) :
    (sc.release t).Balanced ts := by
  obtain ⟨hactions, htaps, hlevel⟩ := h
  have hstanding : ∀ x : Ticket, x.standing (sc.release t) = x.standing sc := by
    intro x
    simp [Ticket.standing, release_id, release_actions]
  have htappable : ∀ x : Ticket, x.tappable (sc.release t) = x.tappable sc := by
    intro x
    simp [Ticket.tappable, hstanding]
  rw [List.countP_cons] at hactions htaps
  constructor
  · simp only [hstanding, release_actions, Counter.release_pending]
    by_cases he : sc.actions.epoch = t.epoch
    · have hself : t.standing sc = true := by simp [Ticket.standing, hid, he]
      simp only [hself, if_true] at hactions
      simp only [he, if_true]
      omega
    · have hself : t.standing sc = false := by simp [Ticket.standing, Ne.symm he]
      simpa [hself, he] using hactions
  · simp only [htappable, release_taps]
    cases htap : t.tapEpoch with
    | none => simpa [Ticket.tappable, htap] using htaps
    | some epoch =>
        obtain rfl := heven epoch htap
        simp only [Counter.release_pending, hlevel]
        by_cases he : sc.actions.epoch = t.epoch
        · have hself : t.tappable sc = true := by
            simp [Ticket.tappable, Ticket.standing, hid, he, htap]
          simp only [hself, if_true] at htaps
          simp only [he, if_true]
          omega
        · have hself : t.tappable sc = false := by
            simp [Ticket.tappable, Ticket.standing, Ne.symm he]
          simpa [hself, he] using htaps
  · rw [release_taps, release_actions, Counter.release_epoch]
    cases t.tapEpoch with
    | none => exact hlevel
    | some epoch => exact (Counter.release_epoch epoch sc.taps).trans hlevel

/-- After a reset no ticket counts that was out before. -/
theorem reset (h : sc.Balanced ts) (hpast : ∀ t ∈ ts, t.scope = sc.id → t.epoch ≤ sc.actions.epoch) :
    sc.reset.Balanced ts := by
  have hnone : ∀ t ∈ ts, t.standing sc.reset = false := by
    intro t ht
    by_cases hid : t.scope = sc.id
    · have := hpast t ht hid
      simp [Ticket.standing, Scope.reset, Counter.reset]
      omega
    · simp [Ticket.standing, Scope.reset, hid]
  refine ⟨(List.countP_eq_zero.mpr fun t ht ↦ ?_).symm,
    (List.countP_eq_zero.mpr fun t ht ↦ ?_).symm, congrArg (· + 1) h.level⟩
  · simp [hnone t ht]
  · simp [Ticket.tappable, hnone t ht]

end Balanced

end Scope

namespace Session

variable {s s' : Session}

theorem Numbered.eq_of_id (h : s.Numbered) {a b : Scope} (ha : a ∈ s.scopes)
    (hb : b ∈ s.scopes) (he : a.id = b.id) : a = b := by
  have hnodup := h.nodup
  generalize s.scopes = scopes at ha hb hnodup
  induction scopes with
  | nil => cases ha
  | cons sc rest ih =>
      rw [List.map_cons, List.nodup_cons] at hnodup
      rcases List.mem_cons.mp ha with rfl | ha' <;> rcases List.mem_cons.mp hb with rfl | hb'
      · rfl
      · exact absurd (he ▸ List.mem_map_of_mem hb') hnodup.1
      · exact absurd (he ▸ List.mem_map_of_mem ha') hnodup.1
      · exact ih ha' hb' hnodup.2

theorem scope?_eq (h : s.Numbered) {sc : Scope} (hsc : sc ∈ s.scopes) :
    s.scope? sc.id = some sc := by
  unfold scope?
  cases hs : s.scopes.find? (fun other ↦ other.id == sc.id) with
  | none =>
      have := List.find?_eq_none.mp hs sc hsc
      simp at this
  | some found =>
      have hfound : found.id = sc.id := by simpa using List.find?_some hs
      rw [h.eq_of_id (List.mem_of_find?_eq_some hs) hsc hfound]

theorem ticket_eq (h : s.Numbered) {sc : Scope} (hsc : sc ∈ s.scopes) (tapBlocking : Bool) :
    s.ticket sc.id tapBlocking = sc.ticket tapBlocking := by
  simp only [ticket, scope?_eq h hsc]

theorem ticket_scope (id : Nat) (tapBlocking : Bool) : (s.ticket id tapBlocking).scope = id := by
  unfold ticket
  cases hs : s.scope? id with
  | none => rfl
  | some sc =>
      have hid : sc.id = id := by simpa using List.find?_some hs
      exact hid

theorem ticket_tapEpoch {id : Nat} (h : s.Numbered) (hid : id ∈ s.scopes.map Scope.id)
    (tapBlocking : Bool) : (s.ticket id tapBlocking).tapEpoch.isSome = tapBlocking := by
  obtain ⟨sc, hsc, rfl⟩ := List.mem_map.mp hid
  rw [ticket_eq h hsc]
  cases tapBlocking <;> rfl

theorem modifyScope_eq_self {id : Nat} {f : Scope → Scope}
    (h : ∀ sc ∈ s.scopes, sc.id = id → f sc = sc) : s.modifyScope id f = s := by
  have hmap : s.scopes.map (fun sc ↦ if sc.id == id then f sc else sc) = s.scopes := by
    refine (List.map_congr_left fun sc hsc ↦ ?_).trans (List.map_id _)
    by_cases he : sc.id = id
    · simpa [he] using h sc hsc he
    · simp [he]
  simp only [modifyScope, hmap]

theorem modifyScope_modifyScope {id : Nat} {f g : Scope → Scope} (hf : ∀ sc, (f sc).id = sc.id) :
    (s.modifyScope id f).modifyScope id g = s.modifyScope id (fun sc ↦ g (f sc)) := by
  simp only [modifyScope, List.map_map]
  congr 1
  refine List.map_congr_left fun sc _ ↦ ?_
  by_cases he : sc.id = id
  · simp [he, hf]
  · simp [he]

/-- A ticket comes from a scope of the session, and not from the future. -/
def Issued (s : Session) (t : Ticket) : Prop :=
  ∃ sc ∈ s.scopes, sc.id = t.scope ∧ t.epoch ≤ sc.actions.epoch ∧
    ∀ epoch, t.tapEpoch = some epoch → epoch = t.epoch

/-- The books of a session that has not ended, for the tickets that are out and
the parked actions that are waited for. -/
structure Books (ts : List Ticket) (parks : List Nat) (s : Session) : Prop where
  running : s.cancelled = false
  numbered : s.Numbered
  balanced : ∀ sc ∈ s.scopes, sc.Balanced ts
  issued : ∀ t ∈ ts, s.Issued t
  unreset : s.skips = 0 → ∀ sc ∈ s.scopes, sc.actions.epoch = 0
  parks_nodup : parks.Nodup
  parks_lt : ∀ id ∈ parks, id < s.serial
  taps_nodup : (s.taps.map Parked.id).Nodup
  taps_subset : s.taps.map Parked.id ⊆ parks

namespace Books

variable {ts ts' : List Ticket} {parks parks' : List Nat}

theorem perm (h : s.Books ts parks) (hts : ts.Perm ts') (hparks : parks.Perm parks') :
    s.Books ts' parks' :=
  { h with
    balanced := fun sc hsc ↦ (h.balanced sc hsc).perm hts
    issued := fun t ht ↦ h.issued t (hts.mem_iff.mpr ht)
    parks_nodup := hparks.nodup_iff.mp h.parks_nodup
    parks_lt := fun id hid ↦ h.parks_lt id (hparks.mem_iff.mpr hid)
    taps_subset := fun _ hid ↦ hparks.mem_iff.mp (h.taps_subset hid) }

/-- The books do not concern the stage, the sound and the flags; parked actions
may leave the stack. -/
theorem carry (h : s.Books ts parks) (running : s'.cancelled = s.cancelled)
    (scopes : s'.scopes = s.scopes) (skips : s'.skips = s.skips) (serial : s.serial ≤ s'.serial)
    (taps : s'.taps.Sublist s.taps) : s'.Books ts parks where
  running := running.trans h.running
  numbered := ⟨scopes ▸ h.numbered.nodup, fun sc hsc ↦
    Nat.lt_of_lt_of_le (h.numbered.lt sc (scopes ▸ hsc)) serial⟩
  balanced := scopes ▸ h.balanced
  issued := by
    intro t ht
    unfold Issued
    rw [scopes]
    exact h.issued t ht
  unreset := by
    rw [skips, scopes]
    exact h.unreset
  parks_nodup := h.parks_nodup
  parks_lt := fun id hid ↦ Nat.lt_of_lt_of_le (h.parks_lt id hid) serial
  taps_nodup := h.taps_nodup.sublist (taps.map _)
  taps_subset := fun _ hid ↦ h.taps_subset ((taps.map _).subset hid)

/-- A change of one scope that leaves the epochs as they are. -/
theorem modifyScope {id : Nat} {f : Scope → Scope} (h : s.Books ts parks)
    (hid : ∀ sc, (f sc).id = sc.id) (hepoch : ∀ sc, (f sc).actions.epoch = sc.actions.epoch)
    (hissued : ∀ t ∈ ts', s.Issued t)
    (hself : ∀ sc ∈ s.scopes, sc.id = id → (f sc).Balanced ts')
    (hother : ∀ sc ∈ s.scopes, sc.id ≠ id → sc.Balanced ts') :
    (s.modifyScope id f).Books ts' parks where
  running := h.running
  numbered := numbered_modifyScope hid h.numbered
  balanced := by
    intro sc hsc
    obtain ⟨old, hold, rfl⟩ := List.mem_map.mp hsc
    by_cases he : old.id = id
    · simpa only [he, beq_self_eq_true, if_true] using hself old hold he
    · simpa only [beq_iff_eq, he, if_false] using hother old hold he
  issued := by
    intro t ht
    obtain ⟨sc, hsc, he, hpast, heven⟩ := hissued t ht
    refine ⟨_, List.mem_map_of_mem hsc, ?_, ?_, heven⟩ <;> split
    · exact (hid sc).trans he
    · exact he
    · exact (hepoch sc).symm ▸ hpast
    · exact hpast
  unreset := by
    intro hskips sc hsc
    obtain ⟨old, hold, rfl⟩ := List.mem_map.mp hsc
    split
    · exact (hepoch old).trans (h.unreset hskips old hold)
    · exact h.unreset hskips old hold
  parks_nodup := h.parks_nodup
  parks_lt := h.parks_lt
  taps_nodup := h.taps_nodup
  taps_subset := h.taps_subset

theorem enter {id : Nat} (h : s.Books ts parks) (hid : id ∈ s.scopes.map Scope.id)
    (tapBlocking : Bool) :
    (s.modifyScope id (.enter tapBlocking)).Books (s.ticket id tapBlocking :: ts) parks := by
  obtain ⟨sc, hsc, rfl⟩ := List.mem_map.mp hid
  rw [ticket_eq h.numbered hsc]
  refine h.modifyScope (Scope.enter_id _) (Scope.enter_epoch _) ?_ ?_ ?_
  · intro t ht
    rcases List.mem_cons.mp ht with rfl | ht
    · refine ⟨sc, hsc, rfl, Nat.le_refl _, fun epoch he ↦ ?_⟩
      have hlevel := (h.balanced sc hsc).level
      cases tapBlocking
      · cases he
      · exact (Option.some.inj he).symm.trans hlevel
    · exact h.issued t ht
  · intro other hother he
    obtain rfl := h.numbered.eq_of_id hother hsc he
    exact (h.balanced other hother).enter tapBlocking
  · exact fun other hother hne ↦ (Scope.Balanced.other (Ne.symm hne)).mpr (h.balanced other hother)

theorem release {t : Ticket} (h : s.Books (t :: ts) parks) :
    (s.modifyScope t.scope (.release t)).Books ts parks := by
  obtain ⟨-, -, -, -, heven⟩ := h.issued t (by simp)
  refine h.modifyScope (Scope.release_id t) ?_ ?_ ?_ ?_
  · intro sc
    rw [Scope.release_actions, Counter.release_epoch]
  · exact fun x hx ↦ h.issued x (by simp [hx])
  · exact fun sc hsc he ↦ (h.balanced sc hsc).release he.symm heven
  · exact fun sc hsc hne ↦ (Scope.Balanced.other (Ne.symm hne)).mp (h.balanced sc hsc)

/-- Taking the latest parked action off the stack leaves the bottom of it. -/
theorem takeTap (h : s.Books ts parks) : s.takeTap.Books ts parks := by
  refine h.carry rfl rfl rfl (Nat.le_refl _) ?_
  conv => rhs; rw [taps_eq_takeTap_append]
  exact List.sublist_append_left _ _

/-- A tick of fast-forward: no ticket counts any more, but all are still out. -/
theorem reset (h : s.Books ts parks) : s.resetScopes.skip.Books ts parks where
  running := h.running
  numbered := by
    have hnumbered := numbered_resetScopes h.numbered
    exact ⟨hnumbered.nodup, hnumbered.lt⟩
  balanced := by
    intro sc hsc
    obtain ⟨old, hold, rfl⟩ := List.mem_map.mp hsc
    refine (h.balanced old hold).reset fun t ht he ↦ ?_
    obtain ⟨sc, hsc, hid, hpast, -⟩ := h.issued t ht
    rwa [h.numbered.eq_of_id hsc hold (hid.trans he)] at hpast
  issued := by
    intro t ht
    obtain ⟨sc, hsc, hid, hpast, heven⟩ := h.issued t ht
    exact ⟨sc.reset, List.mem_map_of_mem hsc, hid, Nat.le_succ_of_le hpast, heven⟩
  unreset := fun hskips ↦ absurd hskips (Nat.succ_ne_zero _)
  parks_nodup := h.parks_nodup
  parks_lt := h.parks_lt
  taps_nodup := h.taps_nodup
  taps_subset := h.taps_subset

/-- A new scope has counted nothing, and no ticket is from there. -/
theorem openScope (h : s.Books ts parks) (parent : Option Nat) :
    (s.openScope parent).2.Books ts parks where
  running := h.running
  numbered := (carries_openScope parent).numbered h.numbered
  balanced := by
    intro sc hsc
    rcases List.mem_append.mp hsc with hsc | hsc
    · exact h.balanced sc hsc
    · have hnone : ∀ t ∈ ts, t.standing sc = false := by
        intro t ht
        obtain ⟨old, hold, he, -⟩ := h.issued t ht
        have hlt := h.numbered.lt old hold
        rw [List.mem_singleton.mp hsc]
        simp [Ticket.standing, Scope.fresh]
        omega
      rw [List.mem_singleton.mp hsc] at hnone ⊢
      refine ⟨(List.countP_eq_zero.mpr fun t ht ↦ ?_).symm,
        (List.countP_eq_zero.mpr fun t ht ↦ ?_).symm, rfl⟩
      · simp [hnone t ht]
      · simp [Ticket.tappable, hnone t ht]
  issued := by
    intro t ht
    obtain ⟨sc, hsc, hrest⟩ := h.issued t ht
    exact ⟨sc, List.mem_append_left _ hsc, hrest⟩
  unreset := by
    intro hskips sc hsc
    rcases List.mem_append.mp hsc with hsc | hsc
    · exact h.unreset hskips sc hsc
    · rw [List.mem_singleton.mp hsc]
      rfl
  parks_nodup := h.parks_nodup
  parks_lt := fun id hid ↦ Nat.lt_succ_of_lt (h.parks_lt id hid)
  taps_nodup := h.taps_nodup
  taps_subset := h.taps_subset

theorem park (h : s.Books ts parks) : s.park.2.Books ts (s.serial :: parks) where
  running := h.running
  numbered := carries_park.numbered h.numbered
  balanced := h.balanced
  issued := h.issued
  unreset := h.unreset
  parks_nodup := List.nodup_cons.mpr
    ⟨fun hmem ↦ Nat.lt_irrefl _ (h.parks_lt _ hmem), h.parks_nodup⟩
  parks_lt := by
    intro id hid
    rcases List.mem_cons.mp hid with rfl | hid
    · exact Nat.lt_succ_self _
    · exact Nat.lt_succ_of_lt (h.parks_lt id hid)
  taps_nodup := by
    simp only [Session.park, List.map_append, List.nodup_append]
    refine ⟨h.taps_nodup, by simp, ?_⟩
    intro a ha b hb hab
    have hlt := h.parks_lt a (h.taps_subset ha)
    have hb : b = s.serial := by simpa using hb
    omega
  taps_subset := by
    intro id hid
    simp only [Session.park, List.map_append, List.map_cons, List.map_nil, List.mem_append,
      List.mem_singleton] at hid
    rcases hid with hid | rfl
    · exact List.mem_cons_of_mem _ (h.taps_subset hid)
    · exact List.mem_cons_self

/-- An action that is no longer parked is no longer waited for. -/
theorem vacate {id : Nat} (h : s.Books ts (id :: parks)) (hid : s.isParked id = false) :
    s.Books ts parks :=
  { h with
    parks_nodup := (List.nodup_cons.mp h.parks_nodup).2
    parks_lt := fun x hx ↦ h.parks_lt x (List.mem_cons_of_mem _ hx)
    taps_subset := by
      intro x hx
      refine (List.mem_cons.mp (h.taps_subset hx)).resolve_left fun he ↦ ?_
      obtain ⟨t, ht, rfl⟩ := List.mem_map.mp hx
      have := List.any_eq_false.mp hid t ht
      simp [he] at this }

end Books

end Session

namespace Playback

variable {p : Playback}

theorem releaseCount_session (h : p.session.Numbered) (scope : Nat) (tally : Tally) (epoch : Nat) :
    (p.releaseCount scope tally epoch).session =
      p.session.modifyScope scope (.modify tally (.release epoch)) := by
  unfold releaseCount
  split
  next hs =>
    refine (Session.modifyScope_eq_self fun sc hsc he ↦ ?_).symm
    have := List.find?_eq_none.mp hs sc hsc
    simp [he] at this
  next sc hs =>
    split
    next => rw [update_raise_eq_touch, touch_session]
    next hcounts =>
      refine (Session.modifyScope_eq_self fun other hother he ↦ ?_).symm
      obtain rfl : other = sc := by
        have := Session.scope?_eq h hother
        rw [he, hs] at this
        exact (Option.some.inj this).symm
      cases tally <;> simp_all [Scope.modify, Scope.counter, Counter.release] <;> rw [← he]

theorem release_session (h : p.session.Numbered) (t : Ticket) :
    (p.release t).session = p.session.modifyScope t.scope (.release t) := by
  unfold release
  cases htap : t.tapEpoch with
  | none =>
      refine (releaseCount_session h _ _ _).trans ?_
      congr 1
      funext sc
      simp only [Scope.release, htap]
  | some epoch =>
      have htaps := releaseCount_session h t.scope .taps epoch
      refine (releaseCount_session ?_ _ _ _).trans ?_
      · rw [htaps]
        exact Session.numbered_modifyScope (fun sc ↦ rfl) h
      · rw [htaps, Session.modifyScope_modifyScope]
        · congr 1
          funext sc
          simp only [Scope.release, htap]
        · exact fun sc ↦ rfl

end Playback

end Storyline
