import Storyline.Proofs.Bench.Covers
import Storyline.Proofs.Playback.Waiting
import Storyline.Proofs.Player.Titles

/-!
# Playing by itself

When playing by itself moves a line or title on, the time that it stays has gone by
since playing by itself was off, as long as the ready tasks have run while it was
off.
-/

namespace Storyline

open Duration (nanosPerMilli)

/-- A wait for a tap that does not count towards playing by itself. -/
def Wait.IsIdle : Wait → Prop
  | .tap _ _ auto => auto = .off
  | _ => True

theorem Wait.Settled.isIdle {w : Wait} {s : Session} (h : w.Settled s) (hoff : s.autoPlay = false) :
    w.IsIdle := by
  cases w with
  | tap park kind auto =>
      cases auto with
      | off => rfl
      | listening | dwelling =>
          obtain ⟨-, -, hon, -⟩ := h
          cases hon.symm.trans hoff
  | _ => trivial

namespace Playback

variable {p q : Playback} {w w' : Wait} {park since : Nat} {kind : Dwell} {auto : Lingering}
  {d : Duration} {ran : Bool} {s : Session}

end Playback

namespace Machine

open Playback

variable {m n : Machine} {park since : Nat} {d : Duration}

end Machine

namespace Bench

open Playback Machine

variable {p q : Playback}

theorem Acts.adds (h : Acts p q) (hp : Player.AtRest p) : Adds p q := by
  have hmeek := h.meek hp
  refine ⟨hmeek.rest, hmeek.moment, ?_⟩
  have hspawn : ∀ (p : Playback) (scope : Option Nat) (agenda : List Errand),
      ∃ new, (p.spawn scope agenda).tasks = p.tasks ++ new ∧ ∀ t ∈ new, t.pauses = [] := by
    intro p scope agenda
    unfold spawn
    split
    · exact ⟨[], (List.append_nil _).symm, by simp⟩
    · exact ⟨[_], rfl, by simp⟩
  cases h with
  | request hr hh =>
      cases handled hp (by rintro rfl; cases hr) hh with
      | stirs hst => exact ⟨[], by rw [hst.tasks, List.append_nil], by simp⟩
      | passes ms hadvance => subst hadvance; cases hr
      | spawns agenda hy hplayback => exact hplayback ▸ hspawn _ none agenda
      | starts asks scope agenda hy hplayback => exact ⟨[_], by rw [hplayback]; rfl, by simp⟩
  | launch actions =>
      obtain ⟨new, hnew, hadded⟩ := hspawn { p with status := .playing } none [.fastForward]
      obtain ⟨new', hnew', hadded'⟩ := hspawn _ (some Player.root) (Player.timeline actions)
      refine ⟨new ++ new', hnew'.trans (by rw [hnew, List.append_assoc]), fun t ht ↦ ?_⟩
      exact (List.mem_append.mp ht).elim (hadded t) (hadded' t)
  | cacheVoice | reorder => exact ⟨[], (List.append_nil _).symm, by simp⟩

variable {m n u : Machine}

end Bench

end Storyline
