import Mathlib.Data.List.MinMax
import Mathlib.Logic.Relation
import Storyline.Voice.Prefetch

/-!
# A pool of fetches

Fetches are made in a pool with `fetchLimit` places.  A path that waits is taken
as soon as a place is free, in the order of waiting; a fetch that is due ends, and
of those that are due together any may be the first; time passes only when no path
can be taken and no fetch is due.  Whatever it does, the pool comes to an end, and
then it has made the fetches of the schedule, with their times.
-/

namespace Storyline

namespace Prefetch

/-- A pool at a moment: the paths that wait, the fetches that are being made, all
that have been begun, and those that have ended, each in their order. -/
structure Pool where
  now : Nat
  waiting : List String
  flights : List Fetch
  begun : List Fetch
  ended : List Fetch

namespace Pool

/-- A pool that has paths to fetch and has begun with none. -/
def opening (paths : List String) : Pool := ⟨0, paths, [], [], []⟩

def IsOver (p : Pool) : Prop := p.waiting = [] ∧ p.flights = []

variable {fetch : Fetcher} {paths : List String} {p q : Pool}

/-- What a pool does next. -/
inductive Step (fetch : Fetcher) (p : Pool) : Pool → Prop
  | take {path : String} {rest : List String} (hwaits : p.waiting = path :: rest)
    (hfree : p.flights.length < fetchLimit) :
    Step fetch p { p with
      waiting := rest
      flights := p.flights ++ [fetchAt fetch p.now path]
      begun := p.begun ++ [fetchAt fetch p.now path] }
  | finish {before after : List Fetch} {f : Fetch} (hflies : p.flights = before ++ f :: after)
    (hdue : f.finish = p.now) :
    Step fetch p { p with flights := before ++ after, ended := p.ended ++ [f] }
  | pass {time : Nat} (hheld : p.waiting = [] ∨ fetchLimit ≤ p.flights.length)
    (hlater : p.now < time) (hnext : ∃ f ∈ p.flights, f.finish = time)
    (hfirst : ∀ f ∈ p.flights, time ≤ f.finish) :
    Step fetch p { p with now := time }

/-- Any number of steps. -/
def Runs (fetch : Fetcher) : Pool → Pool → Prop := Relation.ReflTransGen (Step fetch)

/-! ## What holds at every moment -/

theorem le_finish (fetch : Fetcher) (start : Nat) (path : String) :
    start ≤ (fetchAt fetch start path).finish := by
  rw [fetchAt]
  split
  · split <;> exact Nat.le_add_right _ _
  · exact Nat.le_add_right _ _

/-- The places that are taken, and those that are free at once, make the next
fetches what the schedule says.  A place that has not been taken yet is free from
the beginning. -/
def OnSchedule (fetch : Fetcher) (paths : List String) (p : Pool) : Prop :=
  ∃ busy, p.begun ++ schedule fetch busy p.waiting = schedule fetch [] paths ∧
    (p.waiting ≠ [] → ∃ freed,
      busy.Perm (p.flights.map Fetch.finish ++ List.replicate freed p.now) ∧
        busy.length ≤ fetchLimit ∧ (busy.length < fetchLimit → p.now = 0))

/-- What holds of a pool at every moment. -/
structure Sound (fetch : Fetcher) (paths : List String) (p : Pool) : Prop where
  bounded : p.flights.length ≤ fetchLimit
  due : ∀ f ∈ p.flights, p.now ≤ f.finish
  accounted : (p.flights ++ p.ended).Perm p.begun
  scheduled : p.OnSchedule fetch paths

theorem sound_opening (fetch : Fetcher) (paths : List String) :
    (opening paths).Sound fetch paths where
  bounded := Nat.zero_le _
  due := by simp [opening]
  accounted := .refl _
  scheduled := ⟨[], rfl, fun _ ↦ ⟨0, .refl _, Nat.zero_le _, fun _ ↦ rfl⟩⟩

/-- The next fetch of the schedule is begun when a place becomes free. -/
theorem schedule_cons {busy taken : List Nat} {freed now : Nat} (path : String)
    (rest : List String) (hbusy : busy.Perm (taken ++ List.replicate freed now))
    (hlength : busy.length ≤ fetchLimit) (hopen : busy.length < fetchLimit → now = 0)
    (hfree : taken.length < fetchLimit) (hdue : ∀ time ∈ taken, now ≤ time) :
    ∃ busy' freed', schedule fetch busy (path :: rest) =
        fetchAt fetch now path :: schedule fetch busy' rest ∧
      busy'.Perm (((fetchAt fetch now path).finish :: taken) ++ List.replicate freed' now) ∧
      busy'.length ≤ fetchLimit ∧ (busy'.length < fetchLimit → now = 0) := by
  by_cases hroom : busy.length < fetchLimit
  · obtain rfl := hopen hroom
    refine ⟨(fetchAt fetch 0 path).finish :: busy, freed, ?_, hbusy.cons _, hroom, fun _ ↦ rfl⟩
    simp [schedule, hroom]
  · -- all places have been taken, and fewer are than before: the first free one is free now
    have hfull : busy.length = fetchLimit := by omega
    have hlengths := hbusy.length_eq
    rw [List.length_append, List.length_replicate] at hlengths
    obtain ⟨freed, rfl⟩ : ∃ k, freed = k + 1 := ⟨freed - 1, by omega⟩
    have hmem : now ∈ busy := hbusy.mem_iff.mpr (by simp)
    have hmin : busy.min? = some now := by
      rw [List.min?_eq_some_iff]
      refine ⟨hmem, fun time htime ↦ ?_⟩
      rcases List.mem_append.mp (hbusy.mem_iff.mp htime) with htime | htime
      · exact hdue time htime
      · exact Nat.le_of_eq (List.eq_of_mem_replicate htime).symm
    have herase : (busy.erase now).Perm (taken ++ List.replicate freed now) := by
      have hback : busy.Perm (now :: (taken ++ List.replicate freed now)) := by
        refine hbusy.trans ?_
        rw [List.replicate_succ]
        exact List.perm_middle
      simpa using hback.erase now
    have hnew : (busy.erase now).length + 1 = fetchLimit := by
      rw [List.length_erase_of_mem hmem]
      omega
    refine ⟨(fetchAt fetch now path).finish :: busy.erase now, freed, ?_, herase.cons _, ?_, ?_⟩
    · simp [schedule, hroom, hmin]
    · exact Nat.le_of_eq hnew
    · intro hlt
      rw [List.length_cons] at hlt
      omega

theorem Sound.step (h : p.Sound fetch paths) (hs : Step fetch p q) : q.Sound fetch paths := by
  obtain ⟨busy, hbegun, hplaces⟩ := h.scheduled
  cases hs with
  | @take path rest hwaits hfree =>
    obtain ⟨freed, hbusy, hlength, hopen⟩ := hplaces (by simp [hwaits])
    obtain ⟨busy', freed', hnext, hbusy', hlength', hopen'⟩ :=
      schedule_cons path rest hbusy hlength hopen (by simpa using hfree) (by simpa using h.due)
    refine ⟨?_, ?_, ?_, busy', ?_, fun _ ↦ ⟨freed', ?_, hlength', hopen'⟩⟩
    · simpa [Nat.succ_le_iff] using hfree
    · intro f hf
      rcases List.mem_append.mp hf with hf | hf
      · exact h.due f hf
      · rw [List.mem_singleton.mp hf]
        exact le_finish fetch p.now path
    · simpa using (List.perm_middle.trans (h.accounted.cons _)).trans (List.perm_append_singleton _ _).symm
    · rw [← hbegun, hwaits, hnext]
      simp
    · rw [List.map_append]
      exact hbusy'.trans ((List.perm_append_singleton _ _).symm.append_right _)
  | @finish before after f hflies hdue =>
    refine ⟨?_, ?_, ?_, busy, hbegun, fun hwaits ↦ ?_⟩
    · have hbounded := h.bounded
      rw [hflies] at hbounded
      simp only [List.length_append, List.length_cons] at hbounded ⊢
      omega
    · intro g hg
      apply h.due g
      rw [hflies]
      rcases List.mem_append.mp hg with hg | hg <;> simp [hg]
    · have haccounted := h.accounted
      rw [hflies] at haccounted
      refine List.Perm.trans ?_ haccounted
      simp only [List.append_assoc]
      refine List.Perm.append_left before ?_
      simpa using List.perm_append_singleton f (after ++ p.ended)
    · obtain ⟨freed, hbusy, hlength, hopen⟩ := hplaces hwaits
      refine ⟨freed + 1, hbusy.trans ?_, hlength, hopen⟩
      simp only [hflies, List.map_append, List.map_cons, hdue, List.replicate_succ,
        List.append_assoc, List.cons_append]
      exact List.Perm.append_left _ List.perm_middle.symm
  | @pass time hheld hlater hnext hfirst =>
    refine ⟨h.bounded, hfirst, h.accounted, busy, hbegun, fun hwaits ↦ ?_⟩
    obtain ⟨freed, hbusy, hlength, hopen⟩ := hplaces hwaits
    have hfull : fetchLimit ≤ p.flights.length := hheld.resolve_left hwaits
    have hlengths := hbusy.length_eq
    rw [List.length_append, List.length_replicate, List.length_map] at hlengths
    obtain rfl : freed = 0 := by omega
    exact ⟨0, by simpa using hbusy, hlength, fun hlt ↦ by omega⟩

theorem Sound.runs (h : p.Sound fetch paths) (hr : Runs fetch p q) : q.Sound fetch paths := by
  induction hr with
  | refl => exact h
  | tail _ hs ih => exact ih.step hs

/-! ## The end -/

/-- Every path that waits is still to be begun, to become due and to end. -/
def load (p : Pool) : Nat :=
  3 * p.waiting.length + p.flights.length + p.flights.countP (fun f ↦ decide (p.now < f.finish))

theorem Step.load_lt (hs : Step fetch p q) : q.load < p.load := by
  cases hs with
  | @take path rest hwaits hfree =>
    simp only [load, hwaits, List.length_append, List.countP_append, List.length_cons,
      List.length_nil]
    have hone : [fetchAt fetch p.now path].countP (fun f ↦ decide (p.now < f.finish)) ≤ 1 :=
      List.countP_le_length
    omega
  | @finish before after f hflies hdue =>
    simp [load, hflies, List.countP_append, hdue]
  | @pass time hheld hlater hnext hfirst =>
    obtain ⟨f, hf, rfl⟩ := hnext
    obtain ⟨before, after, hflies⟩ := List.append_of_mem hf
    have hmono (fs : List Fetch) : fs.countP (fun g ↦ decide (f.finish < g.finish)) ≤
        fs.countP (fun g ↦ decide (p.now < g.finish)) :=
      List.countP_mono_left fun g _ hg ↦ by
        have hg := of_decide_eq_true hg
        exact decide_eq_true (by omega)
    have hbefore := hmono before
    have hafter := hmono after
    simp [load, hflies, List.countP_append, hlater]
    omega

/-- No pool goes on for ever. -/
theorem not_endless (fetch : Fetcher) (pools : Nat → Pool) :
    ¬ ∀ n, Step fetch (pools n) (pools (n + 1)) := by
  intro hsteps
  have hload (n : Nat) : (pools n).load + n ≤ (pools 0).load := by
    induction n with
    | zero => exact Nat.le_refl _
    | succ n ih =>
      have hless := (hsteps n).load_lt
      omega
  have hlate := hload ((pools 0).load + 1)
  omega

/-- A pool that is not at its end goes on. -/
theorem Sound.goes_on (h : p.Sound fetch paths) (hover : ¬ p.IsOver) : ∃ q, Step fetch p q := by
  by_cases hfree : p.waiting ≠ [] ∧ p.flights.length < fetchLimit
  · obtain ⟨path, rest, hwaits⟩ := List.exists_cons_of_ne_nil hfree.1
    exact ⟨_, .take hwaits hfree.2⟩
  have hheld : p.waiting = [] ∨ fetchLimit ≤ p.flights.length := by
    by_cases hwaits : p.waiting = []
    · exact Or.inl hwaits
    · exact Or.inr (Nat.le_of_not_lt fun hlt ↦ hfree ⟨hwaits, hlt⟩)
  have hflies : p.flights ≠ [] := by
    intro hnone
    rcases hheld with hwaits | hfull
    · exact hover ⟨hwaits, hnone⟩
    · simp [hnone, fetchLimit] at hfull
  by_cases hdue : ∃ f ∈ p.flights, f.finish = p.now
  · obtain ⟨f, hf, hnow⟩ := hdue
    obtain ⟨before, after, hsplit⟩ := List.append_of_mem hf
    exact ⟨_, .finish hsplit hnow⟩
  · cases hfirst : p.flights.argmin Fetch.finish with
    | none => exact absurd (List.argmin_eq_none.mp hfirst) hflies
    | some f =>
      have hf : f ∈ p.flights := List.argmin_mem hfirst
      have hlater : p.now < f.finish :=
        Nat.lt_of_le_of_ne (h.due f hf) fun heq ↦ hdue ⟨f, hf, heq.symm⟩
      have hle (g : Fetch) (hg : g ∈ p.flights) : f.finish ≤ g.finish :=
        List.le_of_mem_argmin hg hfirst
      exact ⟨_, .pass hheld hlater ⟨f, hf, rfl⟩ hle⟩

/-- It comes to its end, whatever it has done so far. -/
theorem Sound.ends (h : p.Sound fetch paths) : ∃ q, Runs fetch p q ∧ q.IsOver := by
  induction hload : p.load using Nat.strong_induction_on generalizing p with
  | _ load ih =>
    by_cases hover : p.IsOver
    · exact ⟨p, .refl, hover⟩
    · obtain ⟨q, hs⟩ := h.goes_on hover
      obtain ⟨r, hr, hend⟩ := ih q.load (hload ▸ hs.load_lt) (h.step hs) rfl
      exact ⟨r, hr.head hs, hend⟩

/-- The fetches begun so far are the first ones of the schedule. -/
theorem Sound.isPrefix (h : p.Sound fetch paths) : p.begun <+: schedule fetch [] paths := by
  obtain ⟨busy, hbegun, -⟩ := h.scheduled
  exact ⟨_, hbegun⟩

/-- At its end it has made the fetches of the schedule, and each has ended. -/
theorem Sound.made (h : p.Sound fetch paths) (hover : p.IsOver) :
    p.begun = schedule fetch [] paths ∧ p.ended.Perm (schedule fetch [] paths) := by
  obtain ⟨busy, hbegun, -⟩ := h.scheduled
  rw [hover.1, schedule, List.append_nil] at hbegun
  refine ⟨hbegun, ?_⟩
  have haccounted := h.accounted
  rwa [hover.2, List.nil_append, hbegun] at haccounted

end Pool

end Prefetch

end Storyline
