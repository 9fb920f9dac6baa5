import Mathlib.Data.List.Induction
import Storyline.Proofs.SortBy
import Storyline.Proofs.Voice.Schedule

/-!
# What prefetching does

Prefetching fetches every voice of a story that is not in the cache, once, in the
order in which the story first names them.  What it makes of the cache depends on
what the fetches come to, and not on the order in which they end.
-/

namespace Storyline

/-! ## The voices of a story -/

namespace Action

/-- The voice that an action names itself, and not in its parts. -/
def ownVoice : Action → Option String
  | cue c => c.voicePath
  | _ => none

theorem cuesOfList_eq (as : List Action) : cuesOfList as = as.flatMap cues := by
  induction as with
  | nil => rfl
  | cons a as ih => rw [cuesOfList, ih, List.flatMap_cons]

/-- An action names its own voice before those of its parts. -/
theorem voicePaths_eq (a : Action) :
    a.voicePaths = a.ownVoice.toList ++ a.parts.flatMap voicePaths := by
  cases a with
  | cue c => cases hc : c.voicePath <;> simp [voicePaths, cues, ownVoice, parts, hc]
  | block as | fork as =>
    simp only [voicePaths, cues, ownVoice, parts, cuesOfList_eq, Option.toList_none,
      List.nil_append, List.filterMap_flatMap]
    rfl

end Action

namespace Prefetch

variable {paths : List String} {path other : String} {fs order : List Fetch} {f : Fetch}
  {cache cache' : VoiceCache}

theorem distinct_concat (paths : List String) (path : String) : distinct (paths ++ [path]) =
    if path ∈ distinct paths then distinct paths else distinct paths ++ [path] := by
  simp [distinct]

theorem mem_distinct : path ∈ distinct paths ↔ path ∈ paths := by
  induction paths using List.reverseRecOn with
  | nil => rfl
  | append_singleton paths last ih =>
    rw [distinct_concat]
    by_cases hmem : last ∈ distinct paths
    · rw [if_pos hmem, ih]
      by_cases hlast : path = last
      · subst hlast
        simp [ih.mp hmem]
      · simp [hlast]
    · simp [hmem, ih]

/-- Each path stands where it is first named. -/
theorem distinct_order (paths : List String) :
    (distinct paths).Pairwise (fun p q ↦ paths.idxOf p < paths.idxOf q) := by
  induction paths using List.reverseRecOn with
  | nil => exact List.Pairwise.nil
  | append_singleton paths last ih =>
    have hkept {p : String} (hp : p ∈ distinct paths) :
        (paths ++ [last]).idxOf p = paths.idxOf p :=
      List.idxOf_append_of_mem (mem_distinct.mp hp)
    have hold : (distinct paths).Pairwise
        (fun p q ↦ (paths ++ [last]).idxOf p < (paths ++ [last]).idxOf q) := by
      refine ih.imp_of_mem fun hp hq hlt ↦ ?_
      rwa [hkept hp, hkept hq]
    rw [distinct_concat]
    split
    · exact hold
    next hnew =>
      refine List.pairwise_append.mpr ⟨hold, List.pairwise_singleton _ _, fun p hp q hq ↦ ?_⟩
      obtain rfl := List.mem_singleton.mp hq
      have hlast : (paths ++ [q]).idxOf q = paths.length := by
        rw [List.idxOf_append_of_notMem (mt mem_distinct.mpr hnew)]
        simp
      rw [hkept hp, hlast]
      exact List.idxOf_lt_length_of_mem (mem_distinct.mp hp)

theorem missing_order (cache : VoiceCache) (actions : List Action) :
    (missing cache actions).Pairwise (fun p q ↦ (actions.flatMap Action.voicePaths).idxOf p <
      (actions.flatMap Action.voicePaths).idxOf q) :=
  (distinct_order _).filter _

theorem nodup_missing (cache : VoiceCache) (actions : List Action) :
    (missing cache actions).Nodup :=
  (missing_order cache actions).imp fun hlt heq ↦ by
    rw [heq] at hlt
    exact Nat.lt_irrefl _ hlt

theorem mem_missing (cache : VoiceCache) (actions : List Action) :
    path ∈ missing cache actions ↔
      path ∈ actions.flatMap Action.voicePaths ∧ cache.get? path = none := by
  simp [missing, List.mem_filter, mem_distinct, VoiceCache.contains]

/-! ## What is kept -/

theorem get?_insert (blob : Bytes) (cache : VoiceCache) :
    (cache.insert path blob).get? other = if other = path then some blob else cache.get? other := by
  by_cases h : other = path
  · simp [VoiceCache.insert, VoiceCache.get?, h]
  · have hne : (other == path) = false := by simpa using h
    have hfilter (blobs : List (String × Bytes)) :
        (blobs.filter (fun b ↦ b.1 != path)).lookup other = blobs.lookup other := by
      induction blobs with
      | nil => rfl
      | cons b rest ih =>
        obtain ⟨name, content⟩ := b
        by_cases hname : name = path
        · simp [hname, List.lookup_cons, hne, ih]
        · simp [hname, List.lookup_cons, ih]
    simp [VoiceCache.insert, VoiceCache.get?, h, hne, hfilter, List.lookup_cons]

/-- A voice that is not in the cache takes the place of no other. -/
theorem size_insert {blob : Bytes} (h : cache.get? path = none) :
    (cache.insert path blob).size = cache.size + 1 := by
  have hothers : ∀ b ∈ cache.blobs, b.1 ≠ path := by
    rintro b hb rfl
    simpa using List.lookup_eq_none_iff.mp h b hb
  have hfilter : cache.blobs.filter (fun b ↦ b.1 != path) = cache.blobs :=
    List.filter_eq_self.mpr fun b hb ↦ by simpa using hothers b hb
  simp [VoiceCache.insert, VoiceCache.size, hfilter]

/-- The failure of a fetch; it names the path, unless the fetcher has named one. -/
def failure? (f : Fetch) : Option VoiceError :=
  match f.result with
  | .ok _ => none
  | .error e => some ⟨e.failure, some (e.path.getD f.path)⟩

theorem get?_keep (cache : VoiceCache) (f : Fetch) : (keep cache f).get? path =
    if path = f.path then f.result.toOption.or (cache.get? path) else cache.get? path := by
  rw [keep]
  cases hf : f.result with
  | ok blob => simp [get?_insert, Except.toOption]
  | error e => simp [VoiceCache.recordError, VoiceCache.get?, Except.toOption]

theorem errors_keep (cache : VoiceCache) (f : Fetch) :
    (keep cache f).errors = cache.errors ++ (failure? f).toList := by
  rw [keep, failure?]
  cases hf : f.result with
  | ok blob => simp [VoiceCache.insert]
  | error e => simp [VoiceCache.recordError, VoiceError.about]

theorem size_keep (h : cache.get? f.path = none) :
    (keep cache f).size = cache.size + if succeeded f then 1 else 0 := by
  rw [keep, succeeded]
  cases hf : f.result with
  | ok blob => simpa using size_insert h
  | error e => simp [VoiceCache.recordError, VoiceCache.size]

/-- A cache with what fetches have come to, in the order in which they ended. -/
structure Gains (fs : List Fetch) (cache cache' : VoiceCache) : Prop where
  fetched : ∀ f ∈ fs, cache'.get? f.path = f.result.toOption
  kept : ∀ path, path ∉ fs.map Fetch.path → cache'.get? path = cache.get? path
  errors : cache'.errors = cache.errors ++ fs.filterMap failure?
  size : cache'.size = cache.size + fs.countP succeeded

theorem gains_foldl (hnodup : (fs.map Fetch.path).Nodup)
    (hnew : ∀ f ∈ fs, cache.get? f.path = none) : Gains fs cache (fs.foldl keep cache) := by
  induction fs generalizing cache with
  | nil => exact ⟨by simp, fun _ _ ↦ rfl, by simp, rfl⟩
  | cons f rest ih =>
    obtain ⟨hother, hrest⟩ := List.nodup_cons.mp hnodup
    have hgains : Gains rest (keep cache f) (rest.foldl keep (keep cache f)) := by
      refine ih hrest fun g hg ↦ ?_
      have hne : g.path ≠ f.path := fun heq ↦ hother (heq ▸ List.mem_map_of_mem hg)
      rw [get?_keep, if_neg hne]
      exact hnew g (by simp [hg])
    rw [List.foldl_cons]
    constructor
    · intro g hg
      rcases List.mem_cons.mp hg with rfl | hg
      · rw [hgains.kept g.path hother, get?_keep, if_pos rfl, hnew g (by simp), Option.or_none]
      · exact hgains.fetched g hg
    · intro path hpath
      rw [List.map_cons, List.mem_cons, not_or] at hpath
      rw [hgains.kept path hpath.2, get?_keep, if_neg hpath.1]
    · rw [hgains.errors, errors_keep, List.append_assoc]
      cases hf : failure? f <;> simp [hf]
    · rw [hgains.size, size_keep (hnew f (by simp)), List.countP_cons]
      omega

/-- The order in which they ended does not matter. -/
theorem Gains.of_perm {cache₁ cache₂ : VoiceCache} (h₁ : Gains order cache cache₁)
    (h₂ : Gains fs cache cache₂) (hperm : order.Perm fs) :
    (∀ path, cache₁.get? path = cache₂.get? path) ∧ cache₁.errors.Perm cache₂.errors := by
  constructor
  · intro path
    by_cases hpath : path ∈ order.map Fetch.path
    · obtain ⟨f, hf, rfl⟩ := List.mem_map.mp hpath
      rw [h₁.fetched f hf, h₂.fetched f (hperm.mem_iff.mp hf)]
    · have hpath' : path ∉ fs.map Fetch.path :=
        fun hmem ↦ hpath ((hperm.map Fetch.path).mem_iff.mpr hmem)
      rw [h₁.kept path hpath, h₂.kept path hpath']
  · rw [h₁.errors, h₂.errors]
    exact (hperm.filterMap failure?).append_left _

theorem count_add_failures (fs : List Fetch) :
    fs.countP succeeded + (fs.filterMap failure?).length = fs.length := by
  induction fs with
  | nil => rfl
  | cons f rest ih =>
    cases hf : f.result <;> simp [succeeded, failure?, hf] <;> omega

/-! ## All of it -/

/-- A fetch that replies in time takes as long as the reply and comes to it; any
other, also one that never replies, is given up after the timeout. -/
def Timely (fetch : Fetcher) (f : Fetch) : Prop :=
  (∃ delay ≤ fetchTimeout, (fetch f.path).delay = some delay ∧ f.finish = f.start + delay ∧
    f.result = (fetch f.path).result) ∨
  ((∀ delay ≤ fetchTimeout, (fetch f.path).delay ≠ some delay) ∧
    f.finish = f.start + fetchTimeout ∧ f.result = .error ⟨.timeout, none⟩)

/-- What a prefetch has done for a story: one fetch for each of its voices that was
not in the cache, in the order of the story; at most `fetchLimit` at a time; an end;
and a cache that has gained what was fetched, and a failure for everything else. -/
structure Exact (fetch : Fetcher) (cache : VoiceCache) (actions : List Action)
    (p : Prefetch) : Prop where
  once : (p.fetches.map Fetch.path).Nodup
  whole : ∀ path, path ∈ p.fetches.map Fetch.path ↔
    path ∈ actions.flatMap Action.voicePaths ∧ cache.get? path = none
  ordered : (p.fetches.map Fetch.path).Pairwise (fun path other ↦
    (actions.flatMap Action.voicePaths).idxOf path < (actions.flatMap Action.voicePaths).idxOf other)
  starts : (p.fetches.map Fetch.start).Pairwise (· ≤ ·)
  bounded : ∀ time, inFlight time p.fetches ≤ fetchLimit
  timely : ∀ f ∈ p.fetches, Timely fetch f
  lasts : (∀ f ∈ p.fetches, f.finish ≤ p.elapsed) ∧ p.elapsed ≤ span p.fetches.length
  fetched : ∀ f ∈ p.fetches, p.cache.get? f.path = f.result.toOption
  kept : ∀ path, path ∉ p.fetches.map Fetch.path → p.cache.get? path = cache.get? path
  size : p.cache.size = cache.size + p.count
  errors : ∃ new, p.cache.errors = cache.errors ++ new ∧
    new.Perm (p.fetches.filterMap failure?) ∧ p.count + new.length = p.fetches.length

theorem foldl_max_le {times : List Nat} {first bound : Nat} :
    times.foldl max first ≤ bound ↔ first ≤ bound ∧ ∀ time ∈ times, time ≤ bound := by
  induction times generalizing first with
  | nil => simp
  | cons time rest ih => simp [ih, and_assoc]

theorem elapsed_le {p : Prefetch} {bound : Nat} :
    p.elapsed ≤ bound ↔ ∀ f ∈ p.fetches, f.finish ≤ bound := by
  simp [elapsed, foldl_max_le]

/-- The fetches of a schedule are kept in whatever order they end. -/
theorem gains_schedule {fetch : Fetcher} {actions : List Action}
    (h : order.Perm (schedule fetch [] (missing cache actions))) :
    Gains order cache (order.foldl keep cache) := by
  have hpaths : (order.map Fetch.path).Perm (missing cache actions) := by
    have hmap := h.map Fetch.path
    rwa [schedule_paths] at hmap
  refine gains_foldl (hpaths.nodup_iff.mpr (nodup_missing cache actions)) fun f hf ↦ ?_
  exact ((mem_missing cache actions).mp (hpaths.mem_iff.mp (List.mem_map_of_mem hf))).2

theorem exact_run (fetch : Fetcher) (cache : VoiceCache) (actions : List Action) :
    Exact fetch cache actions (run fetch cache actions) := by
  have hfetches : (run fetch cache actions).fetches = schedule fetch [] (missing cache actions) :=
    rfl
  have hpaths : (run fetch cache actions).fetches.map Fetch.path = missing cache actions :=
    schedule_paths
  have hends : (byFinish (run fetch cache actions).fetches).Perm
      (run fetch cache actions).fetches := sortBy_perm _ _
  have hgains : Gains (byFinish (run fetch cache actions).fetches) cache
      (run fetch cache actions).cache := gains_schedule hends
  constructor
  · exact hpaths ▸ nodup_missing cache actions
  · intro path
    rw [hpaths]
    exact mem_missing cache actions
  · exact hpaths ▸ missing_order cache actions
  · exact places_nil.starts.2
  · intro time
    rw [hfetches]
    exact Nat.le_trans (Nat.le_add_left _ _) (places_nil.inFlight_le (Nat.zero_le time))
  · intro f hf
    have hcases := fetchAt_cases fetch f.start f.path
    rwa [← eq_fetchAt hf] at hcases
  · refine ⟨elapsed_le.mp (Nat.le_refl _), elapsed_le.mpr fun f hf ↦ ?_⟩
    have hle : f.finish ≤ span (0 * fetchLimit + 0 + (missing cache actions).length) :=
      places_nil.finish_le (by simp) (by simp [takenAt]) (Nat.zero_le _) f hf
    have hlength : (run fetch cache actions).fetches.length = (missing cache actions).length := by
      rw [← hpaths, List.length_map]
    simpa [hlength] using hle
  · exact fun f hf ↦ hgains.fetched f (hends.mem_iff.mpr hf)
  · intro path hpath
    exact hgains.kept path fun hmem ↦ hpath ((hends.map Fetch.path).mem_iff.mp hmem)
  · rw [hgains.size, hends.countP_eq]
    rfl
  · refine ⟨_, hgains.errors, hends.filterMap failure?, ?_⟩
    rw [(hends.filterMap failure?).length_eq]
    exact count_add_failures _

/-- **Prefetching is exact and bounded.**  The voices of an action are its own and
then those of its parts.  A prefetch has done for a story all that `Exact` says; in
whatever order its fetches end, the cache holds the same and the failures are the
same up to order.  And however a pool goes about it, it never has more fetches in
flight than allowed, begins them in order, does not go on for ever and can always
come to its end, where all of them have been made. -/
theorem prefetch_exact (fetch : Fetcher) (cache : VoiceCache) (actions : List Action) :
    (∀ a : Action, a.voicePaths = a.ownVoice.toList ++ a.parts.flatMap Action.voicePaths) ∧
    Exact fetch cache actions (run fetch cache actions) ∧
    (∀ order : List Fetch, order.Perm (run fetch cache actions).fetches →
      (∀ path, (order.foldl keep cache).get? path = (run fetch cache actions).cache.get? path) ∧
      (order.foldl keep cache).errors.Perm (run fetch cache actions).cache.errors) ∧
    (∀ pools : Nat → Pool, ¬ ∀ n, Pool.Step fetch (pools n) (pools (n + 1))) ∧
    ∀ p, Pool.Runs fetch (.opening (missing cache actions)) p →
      p.flights.length ≤ fetchLimit ∧
      p.begun <+: (run fetch cache actions).fetches ∧
      (∃ q, Pool.Runs fetch p q ∧ q.IsOver) ∧
      (p.IsOver → p.begun = (run fetch cache actions).fetches ∧
        p.ended.Perm (run fetch cache actions).fetches) := by
  refine ⟨Action.voicePaths_eq, exact_run fetch cache actions, ?_, Pool.not_endless fetch, ?_⟩
  · intro order hperm
    have hends : (byFinish (run fetch cache actions).fetches).Perm
        (run fetch cache actions).fetches := sortBy_perm _ _
    exact (gains_schedule hperm).of_perm (gains_schedule hends) (hperm.trans hends.symm)
  · intro p hruns
    have hsound := (Pool.sound_opening fetch (missing cache actions)).runs hruns
    exact ⟨hsound.bounded, hsound.isPrefix, hsound.ends, hsound.made⟩

end Prefetch

end Storyline
