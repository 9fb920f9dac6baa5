import Storyline.Proofs.Voice.Pool

/-!
# The schedule of fetches

The fetches of a schedule are those of its paths, in their order.  Each begins no
sooner than the one before it; at no time more than `fetchLimit` of them are being
made; and each takes as long as its reply, but no longer than `fetchTimeout`, so
that all are made within one timeout for every `fetchLimit` of them.
-/

namespace Storyline

namespace Prefetch

variable {fetch : Fetcher} {busy : List Nat} {since start time : Nat} {path : String}
  {paths rest : List String}

/-! ## One fetch -/

@[simp] theorem fetchAt_path : (fetchAt fetch start path).path = path := by
  rw [fetchAt]
  split
  · split <;> rfl
  · rfl

@[simp] theorem fetchAt_start : (fetchAt fetch start path).start = start := by
  rw [fetchAt]
  split
  · split <;> rfl
  · rfl

/-- A fetch that replies in time takes as long as the reply and comes to it; any
other takes as long as the timeout, and comes to a failure. -/
theorem fetchAt_cases (fetch : Fetcher) (start : Nat) (path : String) :
    (∃ delay ≤ fetchTimeout, (fetch path).delay = some delay ∧
      (fetchAt fetch start path).finish = start + delay ∧
      (fetchAt fetch start path).result = (fetch path).result) ∨
    ((∀ delay ≤ fetchTimeout, (fetch path).delay ≠ some delay) ∧
      (fetchAt fetch start path).finish = start + fetchTimeout ∧
      (fetchAt fetch start path).result = .error ⟨.timeout, none⟩) := by
  cases hdelay : (fetch path).delay with
  | none => exact Or.inr (by simp [fetchAt, hdelay, timedOut])
  | some delay =>
    by_cases hle : delay ≤ fetchTimeout
    · exact Or.inl ⟨delay, hle, rfl, by simp [fetchAt, hdelay, hle]⟩
    · refine Or.inr ⟨?_, by simp [fetchAt, hdelay, hle, timedOut]⟩
      rintro other hother heq
      cases heq
      exact hle hother

theorem finish_le : (fetchAt fetch start path).finish ≤ start + fetchTimeout := by
  rcases fetchAt_cases fetch start path with ⟨delay, hle, -, hfinish, -⟩ | ⟨-, hfinish, -⟩ <;> omega

/-! ## The next fetch -/

/-- The times at which the places taken so far become free, all of them since the
last fetch has begun; while there are more places it has begun at once. -/
structure Places (since : Nat) (busy : List Nat) : Prop where
  bounded : busy.length ≤ fetchLimit
  fresh : busy.length < fetchLimit → since = 0
  later : ∀ time ∈ busy, since ≤ time

/-- How many places are taken beyond a time. -/
def takenAt (time : Nat) (busy : List Nat) : Nat := busy.countP (fun free ↦ decide (time < free))

theorem takenAt_le (time : Nat) (busy : List Nat) : takenAt time busy ≤ busy.length :=
  List.countP_le_length

theorem takenAt_cons (time free : Nat) (busy : List Nat) :
    takenAt time (free :: busy) = takenAt time busy + if time < free then 1 else 0 := by
  simp [takenAt, List.countP_cons]

theorem takenAt_eq_zero (h : ∀ free ∈ busy, free ≤ time) : takenAt time busy = 0 := by
  apply List.countP_eq_zero.mpr
  intro free hfree
  have hle := h free hfree
  simpa using hle

/-- The next fetch begins when a place is free, and takes it. -/
theorem Places.next (h : Places since busy) (fetch : Fetcher) (path : String)
    (rest : List String) : ∃ start busy',
      schedule fetch busy (path :: rest) = fetchAt fetch start path :: schedule fetch busy' rest ∧
      since ≤ start ∧ Places start busy' ∧
      (∀ time, takenAt time busy < fetchLimit → start ≤ time) ∧
      (∀ time ∈ busy', time = (fetchAt fetch start path).finish ∨ time ∈ busy) ∧
      (∀ time, takenAt time busy' ≤ takenAt time busy + 1) ∧
      ∀ time, start ≤ time → takenAt time busy' =
        takenAt time busy + if time < (fetchAt fetch start path).finish then 1 else 0 := by
  by_cases hroom : busy.length < fetchLimit
  · obtain rfl := h.fresh hroom
    refine ⟨0, (fetchAt fetch 0 path).finish :: busy, ?_, Nat.le_refl _, ⟨hroom, fun _ ↦ rfl, ?_⟩,
      fun time _ ↦ Nat.zero_le time, ?_, ?_, ?_⟩
    · simp [schedule, hroom]
    · exact fun time _ ↦ Nat.zero_le time
    · exact fun time htime ↦ List.mem_cons.mp htime
    · intro time
      rw [takenAt_cons]
      split <;> simp
    · exact fun time _ ↦ takenAt_cons time _ busy
  · have hfull : busy.length = fetchLimit := Nat.le_antisymm h.bounded (Nat.le_of_not_lt hroom)
    obtain ⟨start, hmin⟩ : ∃ start, busy.min? = some start := by
      apply Option.isSome_iff_exists.mp
      apply List.isSome_min?_of_ne_nil
      rintro rfl
      exact absurd hfull (by decide)
    obtain ⟨hmem, hfirst⟩ := List.min?_eq_some_iff.mp hmin
    have hperm : busy.Perm (start :: busy.erase start) := List.perm_cons_erase hmem
    have hlength : (busy.erase start).length + 1 = fetchLimit := by
      rw [List.length_erase_of_mem hmem]
      have hpos := List.length_pos_of_mem hmem
      omega
    have hcount (time : Nat) : takenAt time busy =
        takenAt time (busy.erase start) + if time < start then 1 else 0 := by
      rw [← takenAt_cons]
      exact hperm.countP_eq _
    refine ⟨start, (fetchAt fetch start path).finish :: busy.erase start, ?_, h.later start hmem,
      ⟨Nat.le_of_eq hlength, ?_, ?_⟩, ?_, ?_, ?_, ?_⟩
    · simp [schedule, hroom, hmin]
    · intro hlt
      rw [List.length_cons] at hlt
      omega
    · intro time htime
      rcases List.mem_cons.mp htime with rfl | htime
      · exact Pool.le_finish fetch start path
      · exact hfirst time (List.mem_of_mem_erase htime)
    · -- not all places are taken beyond that time, so one is free by then
      intro time htaken
      apply Nat.le_of_not_lt
      intro hlt
      have hall : takenAt time busy = busy.length :=
        List.countP_eq_length.mpr fun free hfree ↦
          decide_eq_true (Nat.lt_of_lt_of_le hlt (hfirst free hfree))
      omega
    · intro time htime
      exact (List.mem_cons.mp htime).imp_right List.mem_of_mem_erase
    · intro time
      have hbefore := hcount time
      rw [takenAt_cons]
      split <;> omega
    · intro time hle
      have hbefore := hcount time
      rw [if_neg (Nat.not_lt_of_le hle), Nat.add_zero] at hbefore
      rw [takenAt_cons, hbefore]

theorem places_nil : Places 0 [] := ⟨Nat.zero_le _, fun _ ↦ rfl, by simp⟩

/-! ## The whole schedule -/

theorem Places.starts (h : Places since busy) :
    (∀ f ∈ schedule fetch busy paths, since ≤ f.start) ∧
      ((schedule fetch busy paths).map Fetch.start).Pairwise (· ≤ ·) := by
  induction paths generalizing since busy with
  | nil => simp [schedule]
  | cons path rest ih =>
    obtain ⟨start, busy', hnext, hsince, hplaces, -⟩ := h.next fetch path rest
    obtain ⟨hlater, hpairwise⟩ := ih hplaces
    rw [hnext]
    constructor
    · intro f hf
      rcases List.mem_cons.mp hf with rfl | hf
      · rwa [fetchAt_start]
      · exact Nat.le_trans hsince (hlater f hf)
    · rw [List.map_cons, fetchAt_start, List.pairwise_cons]
      refine ⟨?_, hpairwise⟩
      intro time htime
      obtain ⟨f, hf, rfl⟩ := List.mem_map.mp htime
      exact hlater f hf

/-- How many fetches are being made at a time. -/
def inFlight (time : Nat) (fetches : List Fetch) : Nat :=
  fetches.countP (fun f ↦ decide (f.start ≤ time ∧ time < f.finish))

/-- Each of them holds a place. -/
theorem Places.inFlight_le (h : Places since busy) (hsince : since ≤ time) :
    takenAt time busy + inFlight time (schedule fetch busy paths) ≤ fetchLimit := by
  induction paths generalizing since busy with
  | nil => exact Nat.le_trans (takenAt_le time busy) h.bounded
  | cons path rest ih =>
    obtain ⟨start, busy', hnext, -, hplaces, -, -, -, htaken⟩ := h.next fetch path rest
    rw [hnext]
    by_cases hstart : start ≤ time
    · have hrest := ih hplaces hstart
      rw [htaken time hstart] at hrest
      rw [inFlight, List.countP_cons]
      simpa [inFlight, hstart, Nat.add_assoc, Nat.add_comm, Nat.add_left_comm] using hrest
    · -- neither this one nor any after it has begun
      have hlater : ∀ f ∈ schedule fetch busy' rest, start ≤ f.start := hplaces.starts.1
      have hnone : inFlight time (fetchAt fetch start path :: schedule fetch busy' rest) = 0 := by
        apply List.countP_eq_zero.mpr
        intro f hf
        have hlate : start ≤ f.start := by
          rcases List.mem_cons.mp hf with rfl | hf
          · rw [fetchAt_start]
          · exact hlater f hf
        simp
        omega
      rw [hnone]
      exact Nat.le_trans (takenAt_le time busy) h.bounded

/-- The time in which so many fetches are made: one timeout for each `fetchLimit`. -/
def span (fetches : Nat) : Nat := (fetches + (fetchLimit - 1)) / fetchLimit * fetchTimeout

theorem le_span {rounds fetches : Nat} (h : rounds * fetchLimit < fetches) :
    (rounds + 1) * fetchTimeout ≤ span fetches := by
  apply Nat.mul_le_mul_right
  rw [Nat.le_div_iff_mul_le (by decide), Nat.succ_mul]
  omega

/-- While at most `used` places are taken beyond a number of timeouts, the fetches
to come count as if `fetchLimit` had been made in each and `used` in the next. -/
theorem Places.finish_le (h : Places since busy) {rounds used : Nat}
    (hbusy : ∀ free ∈ busy, free ≤ (rounds + 1) * fetchTimeout)
    (htaken : takenAt (rounds * fetchTimeout) busy ≤ used) (hused : used ≤ fetchLimit) :
    ∀ f ∈ schedule fetch busy paths,
      f.finish ≤ span (rounds * fetchLimit + used + paths.length) := by
  induction paths generalizing since busy rounds used with
  | nil => simp [schedule]
  | cons path rest ih =>
    -- a full round is the beginning of the next one
    obtain ⟨rounds', used', hbusy', htaken', hless, htotal⟩ :
        ∃ rounds' used', (∀ free ∈ busy, free ≤ (rounds' + 1) * fetchTimeout) ∧
          takenAt (rounds' * fetchTimeout) busy ≤ used' ∧ used' < fetchLimit ∧
          rounds' * fetchLimit + used' = rounds * fetchLimit + used := by
      rcases Nat.lt_or_eq_of_le hused with hless | rfl
      · exact ⟨rounds, used, hbusy, htaken, hless, rfl⟩
      · refine ⟨rounds + 1, 0, fun free hfree ↦ ?_, ?_, by decide, by rw [Nat.succ_mul, Nat.add_zero]⟩
        · exact Nat.le_trans (hbusy free hfree) (Nat.mul_le_mul_right _ (Nat.le_succ _))
        · exact Nat.le_of_eq (takenAt_eq_zero hbusy)
    obtain ⟨start, busy', hnext, -, hplaces, hstarts, hmem, hcount, -⟩ := h.next fetch path rest
    have hstart : start ≤ rounds' * fetchTimeout := hstarts _ (by omega)
    have hfinish : (fetchAt fetch start path).finish ≤ (rounds' + 1) * fetchTimeout := by
      have hle : (fetchAt fetch start path).finish ≤ start + fetchTimeout :=
        Prefetch.finish_le
      rw [Nat.succ_mul]
      omega
    rw [hnext, ← htotal]
    intro f hf
    rcases List.mem_cons.mp hf with rfl | hf
    · refine Nat.le_trans hfinish (le_span ?_)
      rw [List.length_cons]
      omega
    · have hlater := @ih _ _ hplaces rounds' (used' + 1) ?_ ?_ hless f hf
      · simpa [Nat.add_assoc, Nat.add_comm, Nat.add_left_comm] using hlater
      · intro free hfree
        rcases hmem free hfree with rfl | hfree
        · exact hfinish
        · exact hbusy' free hfree
      · exact Nat.le_trans (hcount _) (Nat.succ_le_succ htaken')

theorem schedule_paths : (schedule fetch busy paths).map Fetch.path = paths := by
  induction paths generalizing busy with
  | nil => rfl
  | cons path rest ih => simp [schedule, ih]

theorem eq_fetchAt {f : Fetch} (hf : f ∈ schedule fetch busy paths) :
    f = fetchAt fetch f.start f.path := by
  induction paths generalizing busy with
  | nil => simp [schedule] at hf
  | cons path rest ih =>
    rw [schedule] at hf
    rcases List.mem_cons.mp hf with rfl | hf
    · rw [fetchAt_start, fetchAt_path]
    · exact ih hf

end Prefetch

end Storyline
