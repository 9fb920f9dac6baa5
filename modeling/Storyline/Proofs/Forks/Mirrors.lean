import Storyline.Proofs.Forks.Sessions

/-!
# Playbacks of a story and its solo

The tasks of the solo are the main timeline, the ticker of fast-forward and what
settles after a change of a model.  A story has these and strays besides: its
forks, what they leave behind, and the shakes.  A signal wakes the same tasks in
both playbacks, and strays as it pleases.
-/

namespace Storyline

namespace Naming

variable {N : Naming} {m n : Nat} {w w' : Wait} {c c' : Signal}

theorem SameWait.heeds (h : N.SameWait w w') (hids : Paired N.ids m n) (hc : N.SameSignal c c') :
    w.heeds c = w'.heeds c' := by
  cases h with
  | tap h dwell hauto =>
      cases hc with
      | tap hid => exact decide_eq_decide.mpr (hids.eq_iff h hid)
      | _ => rfl
  | drained h tally guarded =>
      cases hc with
      | counter hid t =>
          exact congrArg (· && tally == t) (decide_eq_decide.mpr (hids.eq_iff h hid))
      | _ => rfl
  | _ => cases hc <;> rfl

/-- No main timeline heeds the counts of strays. -/
theorem SameWait.ignores (h : N.SameWait w w') (hstrays : Apart N.strayScopes N.ids m)
    (hc : N.StraySignal c) : w.heeds c = false := by
  cases hc with
  | counter hscope t =>
      cases h with
      | drained h tally guarded =>
          have hne := beq_eq_false_iff_ne.mpr (hstrays.ne h hscope)
          simp [Wait.heeds, hne]
      | _ => rfl

theorem SamePause.heeds {l : List Pause} {l' : List Pause} (h : List.Forall₂ N.SamePause l l')
    (hids : Paired N.ids m n) (hc : N.SameSignal c c') :
    l.any (fun x ↦ x.heeds c) = l'.any fun x ↦ x.heeds c' :=
  (Weave.of_forall₂ (Q := fun _ ↦ False) h).any (fun hx ↦ hx.wait.heeds hids hc) False.elim

theorem SamePause.ignores {l : List Pause} {l' : List Pause} (h : List.Forall₂ N.SamePause l l')
    (hstrays : Apart N.strayScopes N.ids m) (hc : N.StraySignal c) :
    l.any (fun x ↦ x.heeds c) = false := by
  induction h with
  | nil => rfl
  | cons hx _ ih => rw [List.any_cons, ih, Bool.or_false]; exact hx.wait.ignores hstrays hc

end Naming

namespace Playback

/-- A playback of a story and one of its solo that has come as far. -/
structure Mirrors (N : Naming) (p v : Playback) : Prop where
  session : p.session.Mirrors N v.session
  status : p.status = v.status
  tasks : Weave N.SameTask N.StrayTask p.tasks v.tasks
  queue : Weave (fun a b ↦ (a, b) ∈ N.tasks) (· ∈ N.strayTasks) p.queue v.queue
  spawned : Naming.Paired N.tasks p.spawned v.spawned
  strays : Naming.Apart N.strayTasks N.tasks p.spawned

variable {N M : Naming} {p v q w : Playback} {s s' : Session} {l l' : List Signal} {id id' : Nat}

namespace Mirrors

theorem beq_id (h : p.Mirrors N v) (hid : (id, id') ∈ N.tasks) {a b : Nat} (hab : (a, b) ∈ N.tasks) :
    (a == id) = (b == id') :=
  decide_eq_decide.mpr (h.spawned.eq_iff hab hid)

theorem beq_stray (h : p.Mirrors N v) (hid : (id, id') ∈ N.tasks) {a : Nat}
    (ha : a ∈ N.strayTasks) : (a == id) = false :=
  beq_eq_false_iff_ne.mpr (h.strays.ne hid ha).symm

theorem ne_stray (h : p.Mirrors N v) {a b : Nat} (hab : (a, b) ∈ N.tasks) (hid : id ∈ N.strayTasks) :
    (a == id) = false :=
  beq_eq_false_iff_ne.mpr (h.strays.ne hab hid)

/-! ## Sessions and signals -/

theorem enqueue (h : p.Mirrors N v) {ids ids' : List Nat}
    (hids : Weave (fun a b ↦ (a, b) ∈ N.tasks) (· ∈ N.strayTasks) ids ids') :
    Weave (fun a b ↦ (a, b) ∈ N.tasks) (· ∈ N.strayTasks) (Playback.enqueue p.queue ids)
      (Playback.enqueue v.queue ids') :=
  Weave.enqueue (fun _ _ _ _ hab hcd ↦ h.spawned.eq_iff hab hcd)
    (fun _ _ _ hab hc ↦ h.strays.ne hab hc) h.queue hids

theorem awoken (h : p.Mirrors N v) {c c' : Signal} (hc : N.SameSignal c c') :
    Weave (fun a b ↦ (a, b) ∈ N.tasks) (· ∈ N.strayTasks)
      ((p.tasks.filter fun t ↦ t.heeds c).map Task.id)
      ((v.tasks.filter fun t ↦ t.heeds c').map Task.id) :=
  (h.tasks.filter fun ht ↦ Naming.SamePause.heeds ht.pauses h.session.ids hc).map
    (fun ht ↦ ht.id) fun ht ↦ ht.id

/-- A signal of a stray wakes strays only. -/
theorem awoken_stray (h : p.Mirrors N v) {c : Signal} (hc : N.StraySignal c) :
    ∀ id ∈ (p.tasks.filter fun t ↦ t.heeds c).map Task.id, id ∈ N.strayTasks := by
  intro id hid
  obtain ⟨t, ht, rfl⟩ := List.mem_map.mp hid
  obtain ⟨ht, hheeds⟩ := List.mem_filter.mp ht
  rcases h.tasks.exists_of_mem ht with ⟨t', -, hsame⟩ | hstray
  · have hignores := Naming.SamePause.ignores hsame.pauses h.session.strays hc
    exact absurd (hheeds.symm.trans hignores) (by simp)
  · exact hstray.id

theorem touch (h : p.Mirrors N v) (hs : s.Mirrors N s') (hl : Weave N.SameSignal N.StraySignal l l') :
    (p.touch s l).Mirrors N (v.touch s' l') where
  session := by simpa using hs
  status := by simpa using h.status
  tasks := by simpa using h.tasks
  queue := by
    rw [touch_queue, touch_queue]
    exact h.enqueue (hl.flatMap (fun hc ↦ h.awoken hc) fun hc ↦ h.awoken_stray hc)
  spawned := by simpa using h.spawned
  strays := by simpa using h.strays

theorem withSession (h : p.Mirrors N v) (hs : s.Mirrors N s') :
    ({ p with session := s }).Mirrors N { v with session := s' } :=
  h.touch hs .nil

/-- New names are given to scopes, parked actions or timers. -/
theorem learn (h : p.Mirrors N v) (hle : N ≤ M) (htasks : M.tasks = N.tasks)
    (hstrays : M.strayTasks = N.strayTasks) (hs : s.Mirrors M s') :
    ({ p with session := s }).Mirrors M { v with session := s' } where
  session := hs
  status := h.status
  tasks := h.tasks.imp (fun ht ↦ ht.mono hle) fun ht ↦ ht.mono hle
  queue := h.queue.imp (fun hid ↦ hle.tasks hid) fun hid ↦ hle.strayTasks hid
  spawned := htasks ▸ h.spawned
  strays := htasks ▸ hstrays ▸ h.strays

/-! ## Tasks -/

theorem task? (h : p.Mirrors N v) (hid : (id, id') ∈ N.tasks) :
    Option.Rel N.SameTask (p.task? id) (v.task? id') :=
  h.tasks.find? (fun ht ↦ h.beq_id hid ht.id) fun ht ↦ h.beq_stray hid ht.id

theorem stray_of_task? (h : p.Mirrors N v) (hid : id ∈ N.strayTasks) {t : Task}
    (ht : p.task? id = some t) : N.StrayTask t := by
  rcases h.tasks.exists_of_mem (List.mem_of_find?_eq_some ht) with ⟨t', -, hsame⟩ | hstray
  · have hne := h.ne_stray hsame.id hid
    rw [List.find?_some ht] at hne
    cases hne
  · exact hstray

theorem modifyTask (h : p.Mirrors N v) (hid : (id, id') ∈ N.tasks) {f g : Task → Task}
    (hf : ∀ {t t'}, N.SameTask t t' → N.SameTask (f t) (g t')) :
    (p.modifyTask id f).Mirrors N (v.modifyTask id' g) := by
  refine { h with tasks := h.tasks.map (fun {t t'} ht ↦ ?_) fun {t} ht ↦ ?_ }
  · rw [h.beq_id hid ht.id]
    split
    · exact hf ht
    · exact ht
  · rw [h.beq_stray hid ht.id]
    exact ht

theorem modifyStray (h : p.Mirrors N v) (hid : id ∈ N.strayTasks) {f : Task → Task}
    (hf : ∀ {t}, N.StrayTask t → N.StrayTask (f t)) : (p.modifyTask id f).Mirrors N v := by
  have htasks := h.tasks.map (g := fun t ↦ t) (S := N.SameTask) (P := N.StrayTask)
    (f := fun t ↦ if t.id == id then f t else t) (fun {t t'} ht ↦ ?_) fun {t} ht ↦ ?_
  · rw [List.map_id'] at htasks
    exact { h with tasks := htasks }
  · rw [h.ne_stray ht.id hid]
    exact ht
  · split
    · exact hf ht
    · exact ht

theorem removeTask (h : p.Mirrors N v) (hid : (id, id') ∈ N.tasks) :
    (p.removeTask id).Mirrors N (v.removeTask id') :=
  { h with tasks := h.tasks.filter fun ht ↦ congrArg not (h.beq_id hid ht.id) }

theorem removeStray (h : p.Mirrors N v) (hid : id ∈ N.strayTasks) : (p.removeTask id).Mirrors N v := by
  have hkept : ∀ {t t' : Task}, N.SameTask t t' → (t.id != id) = true :=
    fun ht ↦ congrArg not (h.ne_stray ht.id hid)
  have htasks := h.tasks.filter (q := fun _ ↦ true) hkept
  rw [List.filter_true] at htasks
  exact { h with tasks := htasks }

theorem spawn (h : p.Mirrors N v) {agenda agenda' : List Errand}
    (hagenda : List.Forall₂ N.SameErrand agenda agenda') (scope scope' : Option Nat) :
    ∃ M, N ≤ M ∧ (p.spawn scope agenda).Mirrors M (v.spawn scope' agenda') := by
  unfold Playback.spawn
  rw [h.session.cancelled]
  split
  · exact ⟨N, le_rfl, h⟩
  have hle := N.le_meetTask p.spawned v.spawned
  refine ⟨_, hle, h.session.rename hle rfl rfl rfl, h.status, ?_, ?_, h.spawned.next,
    h.strays.next _⟩
  · exact (h.tasks.imp (fun ht ↦ ht.mono hle) fun ht ↦ ht.mono hle).append
      (.pair ⟨N.mem_meetTask _ _, rfl, rfl, rfl, hagenda.imp fun _ _ he ↦ he.mono hle, .nil⟩ .nil)
  · exact (h.queue.imp (fun hid ↦ hle.tasks hid) fun hid ↦ hid).append
      (.pair (N.mem_meetTask _ _) .nil)

theorem spawnStray (h : p.Mirrors N v) {agenda : List Errand}
    (hagenda : ∀ e ∈ agenda, N.StrayErrand e) (scope : Option Nat) :
    ∃ M, N ≤ M ∧ (p.spawn scope agenda).Mirrors M v := by
  unfold Playback.spawn
  split
  · exact ⟨N, le_rfl, h⟩
  have hle := N.le_strayTask p.spawned
  refine ⟨_, hle, h.session.rename hle rfl rfl rfl, h.status, ?_, ?_,
    h.spawned.mono (Nat.le_succ _) (Nat.le_refl _),
    h.strays.stray fun x hx ↦ (h.spawned.lt x hx).1⟩
  · have htasks := (h.tasks.imp (fun ht ↦ ht.mono hle) fun ht ↦ ht.mono hle).append
      (.stray ⟨N.mem_strayTask p.spawned, fun e he ↦ (hagenda e he).mono hle, by simp⟩ .nil :
        Weave _ _ [⟨p.spawned, true, false, scope, false, agenda, []⟩] [])
    rwa [List.append_nil] at htasks
  · have hqueue := (h.queue.imp (fun hid ↦ hid) fun hid ↦ hle.strayTasks hid).append
      (.stray (N.mem_strayTask p.spawned) .nil : Weave _ _ [p.spawned] [])
    rwa [List.append_nil] at hqueue

theorem withStatus (h : p.Mirrors N v) (status : Status) :
    ({ p with status := status }).Mirrors N { v with status := status } :=
  { h with status := rfl }

end Mirrors

end Playback

end Storyline
