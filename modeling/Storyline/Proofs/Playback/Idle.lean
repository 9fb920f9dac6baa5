import Storyline.Proofs.Playback.Following
import Storyline.Proofs.Playback.Orderly
import Storyline.Proofs.Playback.Turns

/-!
# Idle turns

A task rests if all that it waits for is settled.  Its turn then changes nothing: it
finds every pause as it was, and begins no errand.
-/

namespace Storyline

namespace Playback

variable {p : Playback} {x : Pause} {task : Task}

theorem proceed_held (h : p.turn.isFree = false) (agenda : List Errand) : proceed agenda p = p := by
  cases agenda with
  | nil => rfl
  | cons e rest =>
      unfold proceed
      rw [h, if_neg Bool.false_ne_true]

/-- A pause whose wait is settled becomes the last one, and nothing else happens. -/
theorem revisit_settled {rest : List Pause} (hf : p.turn.failed = false)
    (hpauses : p.turn.pauses = x :: rest) (hx : x.wait.Settled p.session) :
    p.revisit x = p.updateTurn fun t ↦ { t with pauses := rest ++ [x] } := by
  have haside : p.aside = p.updateTurn fun t ↦ { t with pauses := rest } := by
    unfold aside updateTurn
    simp only [hpauses, List.tail_cons]
  have hlook : p.aside.look x.wait = (p.aside, .waits x.wait) := look_of_settled hx
  rw [revisit_eq hf]
  unfold suspend
  rw [hlook, haside]
  rfl

/-- Looking at all pauses in turn leaves them in their order. -/
theorem revisitAll_settled {pauses seen : List Pause} (hf : p.turn.failed = false)
    (hpauses : p.turn.pauses = pauses ++ seen) (hsettled : ∀ x ∈ pauses, x.wait.Settled p.session) :
    pauses.foldl (fun p x ↦ p.revisit x) p =
      p.updateTurn fun t ↦ { t with pauses := seen ++ pauses } := by
  induction pauses generalizing p seen with
  | nil =>
      rw [List.nil_append] at hpauses
      simp only [List.foldl_nil, updateTurn, List.append_nil, ← hpauses]
  | cons x rest ih =>
      have hmore := ih (p := p.updateTurn fun t ↦ { t with pauses := rest ++ seen ++ [x] })
        hf (List.append_assoc _ _ _) fun y hy ↦ hsettled y (List.mem_cons_of_mem _ hy)
      rw [List.foldl_cons, revisit_settled hf hpauses (hsettled x List.mem_cons_self)]
      refine hmore.trans ?_
      simp [updateTurn]

/-- What was taken out of the table at the beginning of a turn is put back at its end. -/
theorem modifyTask_back (hnodup : (p.tasks.map Task.id).Nodup) (htask : task ∈ p.tasks) :
    ((p.modifyTask task.id fun t ↦ { t with agenda := [], pauses := [] }).modifyTask task.id fun t ↦
      { t with agenda := task.agenda, pauses := task.pauses }) = p := by
  suffices hmap : (p.tasks.map fun t ↦ if t.id == task.id then { t with agenda := [], pauses := [] } else t).map
      (fun t ↦ if t.id == task.id then { t with agenda := task.agenda, pauses := task.pauses } else t) =
      p.tasks by
    unfold modifyTask
    dsimp only
    rw [hmap]
  rw [List.map_map]
  refine (List.map_congr_left fun t ht ↦ ?_).trans (List.map_id _)
  by_cases he : t.id = task.id
  · obtain rfl := List.inj_on_of_nodup_map hnodup ht htask he
    simp
  · simp [he]

theorem takeTurn_settled (hnodup : (p.tasks.map Task.id).Nodup) (hturn : p.turn = .none)
    (htask : task ∈ p.tasks) (hne : task.pauses ≠ [])
    (hsettled : ∀ x ∈ task.pauses, x.wait.Settled p.session) : takeTurn task p = p := by
  have hpauses : (p.begun task).turn.pauses = task.pauses ++ [] := (List.append_nil _).symm
  have hseen : task.pauses.foldl (fun p x ↦ p.revisit x) (p.begun task) = p.begun task :=
    revisitAll_settled rfl hpauses hsettled
  have hheld : (p.begun task).turn.isFree = false := by
    simpa [begun, updateTurn, Turn.ofTask, Turn.isFree] using hne
  rw [takeTurn_eq, worked, hseen, proceed_held hheld]
  unfold endTurn
  dsimp only
  rw [if_neg (by simp [begun, updateTurn, Turn.ofTask]),
    if_neg (by simpa [begun, updateTurn, Turn.ofTask] using hne),
    if_neg (by simp [begun, updateTurn, Turn.ofTask])]
  have hback := modifyTask_back hnodup htask
  calc _ = ({ ((p.modifyTask task.id fun t ↦ { t with agenda := [], pauses := [] }).modifyTask task.id
          fun t ↦ { t with agenda := task.agenda, pauses := task.pauses }) with turn := .none }) := rfl
    _ = p := by rw [hback, ← hturn]

/-- A task that rests, or that is gone. -/
def Rests (p : Playback) (id : Nat) : Prop :=
  ∀ t ∈ p.tasks, t.id = id →
    t.aborted = false ∧ t.pauses ≠ [] ∧ ∀ x ∈ t.pauses, x.wait.Settled p.session

theorem Rests.runTask {id : Nat} (h : p.Rests id) (hnodup : (p.tasks.map Task.id).Nodup)
    (hturn : p.turn = .none) : runTask id p = p := by
  unfold Playback.runTask
  split
  · rfl
  next task hsome =>
    obtain ⟨htask, hid⟩ := Orderly.task?_eq hsome
    obtain ⟨hwhole, hne, hsettled⟩ := h task htask hid
    rw [hwhole, if_neg Bool.false_ne_true]
    exact takeTurn_settled hnodup hturn htask hne hsettled

end Playback

end Storyline
