import Storyline.Proofs.Bench.Holdings

/-!
# The registry of scopes

The registry has a link to every scope that has been opened, but a link does not keep a scope
in use; when a scope is opened, the links to scopes out of use are dropped.  Yet it finds
whatever is in use: a scope that has gone out of use stays so.
-/

namespace Storyline

open Relation

namespace Bench

open Playback
open Session (Solvent)

namespace Scene

/-- A single step: of a task, of the clock, or a request that lets no time pass. -/
inductive Stride : Scene → Scene → Prop
  | machine {b : Bench} {m n : Machine} (h : Machine.Step (fun _ _ ↦ False) m n) :
    Stride (of b m) (of b n)
  | request {b b' : Bench} {r : Request} {response : Response} (htime : ∀ ms, r ≠ .advance ms)
    (h : b.handle r = .ok (b', response)) : Stride (still b) (still b')
  | note {b : Bench} : Stride (still b) (still (b.notePark .resumed))

/-- The scopes that are in use. -/
def uses (x : Scene) : List Nat := x.bench.held ++ x.machine.uses

/-- What holds a scope: the bench has it or a ticket of it in hand, a task holds such a ticket, or
something under way takes place in it or within it. -/
inductive Holds (x : Scene) (i : Nat) : Prop
  | handle (h : some i ∈ x.bench.scopes)
  | ticket {t : Ticket} (h : t ∈ x.bench.out) (hi : t.scope = i)
  | work {k : Stake} (hk : k ∈ x.machine.stakes) (h : i ∈ k.needs ∨ i ∈ k.keeps)

/-- The links after a step, if they were those given before it. -/
def relink (x y : Scene) (links : List Nat) : List Nat :=
  match y.bench.session.opened.drop x.bench.session.opened.length with
  | [] => links
  | new => links.filter (fun i ↦ x.uses.contains i) ++ new

/-- The scopes that the registry finds by its links. -/
def found (x : Scene) (links : List Nat) : List Nat := links.filter fun i ↦ x.uses.contains i

/-- The scopes in use, as they stand. -/
def live (x : Scene) : List Scope := x.bench.session.scopes.filter fun sc ↦ x.uses.contains sc.id

/-- The moment after a reset of the given scopes, one by one. -/
def clearedOf (ids : List Nat) (x : Scene) : Scene :=
  { x with bench := x.bench.mapPlayback fun p ↦ ids.foldl (fun p i ↦ p.resetScope i) p }

/-- The moment after a reset of all scopes. -/
def cleared (x : Scene) : Scene := { x with bench := x.bench.mapPlayback .resetScopes }

end Scene

open Scene

/-- The links of the registry in the course of a run. -/
inductive Registers (start : Bench) : Scene → List Nat → Prop
  | start : Registers start (.still start) []
  | step {x y : Scene} {links : List Nat} (h : Registers start x links) (hs : x.Stride y) :
    Registers start y (x.relink y links)

/-! ## What is under way is provided for -/

/-- What holds at every moment: nothing is needed that is not in use, nothing is in use that has
not been opened, and the scopes reckon with the tickets that are out. -/
structure Provided (x : Scene) : Prop where
  sound : x.machine.Sound
  cast : x.machine.Cast
  seated : x.machine.Seated
  solvent : Solvent (x.bench.session, x.bench.out)
  covered : ∀ k ∈ x.machine.stakes, k.Covered
  opened : ∀ i ∈ x.uses, i ∈ x.bench.session.opened
  ascending : x.bench.session.opened.Pairwise (· < ·)

/-- From one moment to another nothing comes into use but what is opened meanwhile. -/
structure Advances (x y : Scene) : Prop where
  grows : x.bench.session.Grows y.bench.session
  uses : ∀ i ∈ y.uses, i ∈ x.uses ∨ x.bench.session.serial ≤ i ∧ i ∈ y.bench.session.opened

section

variable {x y z : Scene} {b b' : Bench} {m n : Machine} {links : List Nat} {i : Nat}

theorem Provided.lt (h : Provided x) (hi : i ∈ x.bench.session.opened) : i < x.bench.session.serial := by
  obtain ⟨lost, hreckons⟩ := h.solvent
  obtain ⟨sc, hsc, rfl⟩ := List.mem_map.mp hi
  exact hreckons.numbered.lt sc hsc

/-- What has been opened and is in use later was in use before. -/
theorem Advances.restrict (h : Advances x y) (hx : Provided x) (hi : i ∈ x.bench.session.opened)
    (huses : i ∈ y.uses) : i ∈ x.uses :=
  (h.uses i huses).resolve_right fun ⟨hle, _⟩ ↦ Nat.not_lt.mpr hle (hx.lt hi)

theorem Advances.opened (h : Advances x y) (hx : Provided x) : ∀ i ∈ y.uses, i ∈ y.bench.session.opened :=
  fun i hi ↦ (h.uses i hi).elim (fun hold ↦ h.grows.subset (hx.opened i hold)) And.right

theorem Advances.trans (h : Advances x y) (h' : Advances y z) : Advances x z where
  grows := h.grows.trans h'.grows
  uses := by
    intro i hi
    rcases h'.uses i hi with hi | ⟨hle, hopened⟩
    · exact (h.uses i hi).imp_right fun ⟨hle, hopened⟩ ↦ ⟨hle, h'.grows.subset hopened⟩
    · exact .inr ⟨Nat.le_trans h.grows.serial hle, hopened⟩

/-- A step that backs all stakes, and handles tickets. -/
theorem advances_machine (hx : Provided (of b m)) (hs : Machine.Sound n) (hc : Machine.Cast n)
    (hseated : Machine.Seated n) (hhandles : Handles True [] [] m.playback n.playback)
    (hsecures : m.Secures n) :
    Provided (of b n) ∧ Advances (of b m) (of b n) := by
  obtain ⟨opened, hbacks, hopened⟩ := hsecures
  have hadvances : Advances (of b m) (of b n) := by
    refine ⟨hhandles.grows, fun i hi ↦ ?_⟩
    rcases List.mem_append.mp hi with hi | hi
    · exact .inl (List.mem_append_left _ hi)
    · obtain ⟨k, hk, hi⟩ := List.mem_flatMap.mp hi
      rcases (hbacks k hk).keeps i hi with hi | hi
      · exact .inr ⟨Nat.le_of_eq (hopened i hi).1.symm, (hopened i hi).2⟩
      · exact .inl (List.mem_append_right _ hi)
  refine ⟨⟨hs, hc, hseated, ?_, fun k hk ↦ (hbacks k hk).covered, hadvances.opened hx, ?_⟩, hadvances⟩
  · exact Session.solvent_of_handling (hhandles.frame b.hand) hx.solvent
  · exact hhandles.grows.ascending hx.ascending fun i hi ↦ hx.lt hi

theorem Provided.machine (h : Provided (of b m)) (hstep : Machine.Step (fun _ _ ↦ False) m n) :
    Provided (of b n) ∧ Advances (of b m) (of b n) := by
  have hsound := hstep.sound (fun _ _ hf ↦ hf.elim) h.sound
  have hcast := hstep.cast (fun _ _ hf ↦ hf.elim) h.sound h.cast
  cases hstep with
  | beat hb =>
    exact advances_machine h hsound hcast (hb.seated h.sound h.seated)
      (hb.handles h.sound h.cast h.seated (fun _ ↦ trivial) fun _ _ ↦ trivial)
      (hb.secures h.sound h.covered)
  | act hf => exact hf.elim
  | @move p time =>
    obtain ⟨queue, hmoved⟩ := Machine.moveTo_eq time p
    rw [hmoved] at hsound hcast ⊢
    exact advances_machine h hsound hcast ⟨h.seated.tasks, h.seated.agenda, h.seated.jobs⟩
      (.of_perm rfl (Nat.le_refl _) (.refl _)) (Machine.secures_of_subset h.covered (List.Subset.refl _))
  | rest =>
    exact advances_machine h hsound hcast ⟨h.seated.tasks, h.seated.agenda, h.seated.jobs⟩
      (.of_perm rfl (Nat.le_refl _) (.refl _)) (Machine.secures_of_subset h.covered (List.Subset.refl _))

theorem mem_stakes_still (hs : (still b).machine.Sound) {k : Stake} :
    k ∈ (still b).machine.stakes ↔ ∃ t ∈ b.playback.tasks, k ∈ t.stakes := by
  have hnone : b.playback.turn = .none := hs.orderly.idle rfl
  rw [Machine.mem_stakes]
  simp [still, machine, hnone, Turn.none]

theorem mem_uses_still (hs : (still b).machine.Sound) :
    i ∈ (still b).machine.uses ↔ ∃ t ∈ b.playback.tasks, i ∈ t.scopes := by
  simp only [Machine.uses, List.mem_flatMap, mem_stakes_still hs, ← Task.stakes_keeps]
  constructor
  · rintro ⟨k, ⟨t, ht, hk⟩, hi⟩
    exact ⟨t, ht, k, hk, hi⟩
  · rintro ⟨t, ht, k, hk, hi⟩
    exact ⟨k, ⟨t, ht, hk⟩, hi⟩

/-- A task that the bench employs has its stakes in what the bench holds. -/
theorem Employs.stake {t : Task} {k : Stake} (h : b.Employs t) (hk : k ∈ t.stakes) :
    k.Covered ∧ ∀ i ∈ k.keeps, i ∈ b.held := by
  rcases Task.mem_stakes.mp hk with rfl | ⟨e, he, rfl⟩ | ⟨x, hx, rfl⟩
  · exact ⟨List.Subset.refl _, fun i hi ↦ h.scope i (Option.mem_toList.mp hi)⟩
  · refine ⟨fun i hi ↦ ?_, h.scopes e he⟩
    have hroom : e.room? = some i := by simpa [Errand.stake, h.tickets e he] using hi
    cases e <;> simp_all [Errand.room?, Errand.stake, Errand.scopes]
  · rw [h.pauses] at hx
    cases hx

theorem Employs.sits {t : Task} {e : Errand} {s : Session} (h : b.Employs t) (he : e ∈ t.agenda)
    (hheld : ∀ i ∈ b.held, i ∈ s.scopes.map Scope.id) : e.Sits s := by
  have hticket := h.tickets e he
  have hscopes := h.scopes e he
  cases e with
  | perform action scope => exact hheld scope (hscopes scope (List.mem_singleton.mpr rfl))
  | drain => exact hticket
  | _ => trivial

/-- A stake that comes with a request is one of before, or of a task that the bench employs. -/
theorem Minds.stake {k : Stake} (h : Minds b b') (hs : (still b).machine.Sound) (hs' : (still b').machine.Sound)
    (hk : k ∈ (still b').machine.stakes) :
    k ∈ (still b).machine.stakes ∨ k.Covered ∧ ∀ i ∈ k.keeps, i ∈ b.held := by
  obtain ⟨t, ht, hk⟩ := (mem_stakes_still hs').mp hk
  rcases h.tasks t ht with ⟨old, hold, hscope, hagenda, hpauses⟩ | hemploys
  · have hsame : t.stakes = old.stakes := by
      rw [Task.stakes, Task.base, hscope, hagenda, hpauses, Task.stakes, Task.base]
    exact .inl ((mem_stakes_still hs).mpr ⟨old, hold, hsame ▸ hk⟩)
  · exact .inr (hemploys.stake hk)

theorem Minds.seated (h : Minds b b') (hseated : (still b).machine.Seated)
    (hs' : (still b').machine.Sound) (hheld : ∀ i ∈ b.held, i ∈ b.session.opened) :
    (still b').machine.Seated := by
  refine ⟨fun t ht e he ↦ ?_, ?_, by simp [still, Scene.machine]⟩
  · rcases h.tasks t ht with ⟨old, hold, -, hagenda, -⟩ | hemploys
    · exact (hseated.tasks old hold e (hagenda ▸ he)).carry h.grows.subset
    · exact hemploys.sits he fun i hi ↦ h.grows.subset (hheld i hi)
  · rw [show (still b').machine.playback.turn = .none from hs'.orderly.idle rfl]
    simp [Turn.none]

theorem Provided.request {r : Request} {response : Response} (h : Provided (still b))
    (htime : ∀ ms, r ≠ .advance ms) (hh : b.handle r = .ok (b', response)) :
    Provided (still b') ∧ Advances (still b) (still b') := by
  have hheld : ∀ i ∈ b.held, i ∈ b.session.opened := fun i hi ↦ h.opened i (List.mem_append_left _ hi)
  have hminds := minds_handle hheld htime hh
  obtain ⟨hsound, hcast⟩ := sound_handle h.sound h.cast hh
  have hadvances : Advances (still b) (still b') := by
    refine ⟨hminds.grows, fun i hi ↦ ?_⟩
    rcases List.mem_append.mp hi with hi | hi
    · exact (hminds.held i hi).imp_left (List.mem_append_left _)
    · obtain ⟨k, hk, hi⟩ := List.mem_flatMap.mp hi
      rcases hminds.stake h.sound hsound hk with hold | ⟨-, hkeeps⟩
      · exact .inl (List.mem_append_right _ (Machine.mem_uses hold hi))
      · exact .inl (List.mem_append_left _ (hkeeps i hi))
  refine ⟨⟨hsound, hcast, hminds.seated h.seated hsound hheld, hminds.solvent h.solvent, fun k hk ↦ ?_,
    hadvances.opened h, ?_⟩, hadvances⟩
  · exact (hminds.stake h.sound hsound hk).elim (h.covered k) And.left
  · exact hminds.grows.ascending h.ascending fun i hi ↦ h.lt hi

theorem Provided.stride (h : Provided x) (hs : x.Stride y) : Provided y ∧ Advances x y := by
  cases hs with
  | machine hstep => exact h.machine hstep
  | request htime hh => exact h.request htime hh
  | note => exact ⟨⟨h.sound, h.cast, h.seated, h.solvent, h.covered, h.opened, h.ascending⟩,
      .refl _, fun i hi ↦ .inl hi⟩

theorem Provided.strides (h : Provided x) (hs : ReflTransGen Stride x y) : Provided y ∧ Advances x y := by
  induction hs with
  | refl => exact ⟨h, .refl _, fun i hi ↦ .inl hi⟩
  | tail _ hstride ih =>
    obtain ⟨hprovided, hadvances⟩ := ih
    obtain ⟨hprovided', hadvances'⟩ := hprovided.stride hstride
    exact ⟨hprovided', hadvances.trans hadvances'⟩

theorem provided_new (config : Config) (host : Host) (voices : VoiceCache) :
    Provided (still (new config host voices)) where
  sound := (tidy_new config host voices).sound
  cast := (tidy_new config host voices).cast
  seated := ⟨by simp [still, machine, new, Playback.new], by simp [still, machine, new, Playback.new, Turn.none],
    by simp [still, machine]⟩
  solvent := ⟨[], 0, by
    constructor <;>
      simp [still, new, out, hand, session, Playback.new, Session.new, Playback.tickets, Turn.none]
    exact ⟨.nil, by simp⟩⟩
  covered := by simp [still, machine, Machine.stakes, new, Playback.new, Turn.none]
  opened := by simp [uses, still, machine, Machine.uses, Machine.stakes, Bench.held, new, Playback.new, Turn.none]
  ascending := .nil

theorem strides_of_machine (h : Machine.Runs (fun _ _ ↦ False) m n) :
    ReflTransGen Stride (of b m) (of b n) := by
  induction h with
  | refl => exact .refl
  | step _ hs ih => exact ih.tail (.machine hs)

/-- The steps of a bench are made of single ones. -/
theorem strides_of_step {permits : Request → Prop} (h : Provided (still b)) (hs : Step permits b b') :
    ReflTransGen Stride (still b) (still b') := by
  have hpasses {p : Playback} (hp : b.playback.Passes p) :
      ReflTransGen Stride (still b) (still { b with playback := p }) :=
    strides_of_machine (b := b) (Machine.runs_passes hp)
  cases hs with
  | passes hp => exact hpasses hp
  | note => exact .single .note
  | @request _ r response _ hh =>
    cases r with
    | advance ms =>
      rw [← (Prod.mk.inj (Except.ok.inj hh)).1]
      exact hpasses (Player.reaches_advance ms h.sound.orderly).1
    | _ => exact .single (.request (by simp) hh)

theorem strides_of_reaches {permits : Request → Prop} (h : Provided (still b))
    (hr : Reaches permits b b') : ReflTransGen Stride (still b) (still b') := by
  induction hr with
  | refl => exact .refl
  | step _ hs ih => exact ih.trans (strides_of_step (h.strides ih).1 hs)

/-! ## The registry -/

theorem registers_of_strides {start : Bench} (h : Registers start x links) (hs : ReflTransGen Stride x y) :
    ∃ links, Registers start y links := by
  induction hs with
  | refl => exact ⟨links, h⟩
  | tail _ hstride ih =>
    obtain ⟨links, hlinks⟩ := ih
    exact ⟨_, hlinks.step hstride⟩

/-- The links are in the order in which the scopes have been opened, and none is missing of those
in use. -/
structure Linked (x : Scene) (links : List Nat) : Prop where
  order : links.Sublist x.bench.session.opened
  found : x.found links = x.found x.bench.session.opened

/-- What is found later has been found before, if it was there. -/
theorem Advances.found (h : Advances x y) (hx : Provided x) {l : List Nat}
    (hl : l ⊆ x.bench.session.opened) : y.found l = y.found (x.found l) := by
  unfold Scene.found
  rw [List.filter_filter]
  refine List.filter_congr fun i hi ↦ ?_
  simp only [List.contains_eq_mem, ← Bool.decide_and, decide_eq_decide]
  exact ⟨fun huses ↦ ⟨huses, h.restrict hx (hl hi) huses⟩, And.left⟩

theorem Linked.relink (hx : Provided x) (h : Linked x links) (hxy : Advances x y) :
    Linked y (x.relink y links) := by
  obtain ⟨new, hnew, -⟩ := hxy.grows.opens
  have hold : y.found links = y.found x.bench.session.opened := by
    rw [hxy.found hx h.order.subset, h.found, ← hxy.found hx (List.Subset.refl _)]
  unfold Scene.relink
  rw [hnew, List.drop_left]
  cases new with
  | nil =>
    rw [List.append_nil] at hnew
    exact ⟨hnew ▸ h.order, hnew ▸ hold⟩
  | cons i new =>
    refine ⟨hnew ▸ (List.filter_sublist.trans h.order).append (.refl _), ?_⟩
    have hkept : y.found (x.found links) = y.found x.bench.session.opened :=
      (hxy.found hx h.order.subset).symm.trans hold
    rw [hnew, Scene.found, Scene.found, List.filter_append, List.filter_append]
    exact congrArg (· ++ _) hkept

theorem linked_of_registers {config : Config} {host : Host} {voices : VoiceCache}
    (h : Registers (new config host voices) x links) : Provided x ∧ Linked x links := by
  induction h with
  | start => exact ⟨provided_new config host voices, List.nil_sublist _, rfl⟩
  | step _ hs ih =>
    obtain ⟨hprovided, hlinked⟩ := ih
    obtain ⟨hprovided', hadvances⟩ := hprovided.stride hs
    exact ⟨hprovided', hlinked.relink hprovided hadvances⟩

/-! ## Completeness -/

theorem Provided.mem_uses_iff (h : Provided x) : i ∈ x.uses ↔ x.Holds i := by
  constructor
  · intro hi
    rcases List.mem_append.mp hi with hi | hi
    · rcases List.mem_append.mp hi with hi | hi
      · exact .handle (by simpa using hi)
      · obtain ⟨t, ht, rfl⟩ := List.mem_map.mp hi
        exact .ticket (List.mem_append_left _ ht) rfl
    · obtain ⟨k, hk, hi⟩ := List.mem_flatMap.mp hi
      exact .work hk (.inr hi)
  · rintro (hi | ⟨ht, rfl⟩ | ⟨hk, hi⟩)
    · exact List.mem_append_left _ (List.mem_append_left _ (by simpa using hi))
    · rcases List.mem_append.mp ht with ht | ht
      · exact List.mem_append_left _ (List.mem_append_right _ (List.mem_map_of_mem ht))
      · obtain ⟨k, hk, hneeds⟩ := Machine.exists_stake (m := x.machine) ht
        exact List.mem_append_right _ (Machine.mem_uses hk (h.covered k hk hneeds))
    · exact List.mem_append_right _ (Machine.mem_uses hk (hi.elim (fun hi ↦ h.covered _ hk hi) fun hi ↦ hi))

theorem map_id_live (x : Scene) : x.live.map Scope.id = x.found x.bench.session.opened := by
  rw [Scene.found, Session.opened, List.filter_map]
  rfl

/-- Between turns the scopes in use are those that tasks or the bench keep so. -/
theorem liveScopes_held (h : Provided (still b)) : b.playback.liveScopes b.held = (still b).live := by
  refine List.filter_congr fun sc _ ↦ ?_
  simp only [List.contains_eq_mem, decide_eq_decide, uses, List.mem_append, mem_uses_still h.sound,
    List.mem_flatMap]
  rfl

/-- What the registry finds at a moment: each scope that is held, once, in the order in which they
have been opened, and by increasing numbers. -/
structure Complete (x : Scene) (links : List Nat) : Prop where
  held : ∀ i, i ∈ x.found links ↔ x.Holds i
  live : x.live.map Scope.id = x.found links
  order : (x.found links).Sublist x.bench.session.opened
  ascending : (x.found links).Pairwise (· < ·)
  still : ∀ b, x = .still b → b.playback.liveScopes b.held = x.live

theorem Linked.complete (hx : Provided x) (h : Linked x links) : Complete x links where
  held := by
    intro i
    rw [h.found, ← hx.mem_uses_iff, Scene.found, List.mem_filter, List.contains_eq_mem, decide_eq_true_iff]
    exact ⟨And.right, fun hi ↦ ⟨hx.opened i hi, hi⟩⟩
  live := (map_id_live x).trans h.found.symm
  order := List.filter_sublist.trans h.order
  ascending := hx.ascending.sublist (List.filter_sublist.trans h.order)
  still := by
    rintro b rfl
    exact liveScopes_held hx

/-! ## Resets -/

/-- The tickets that are out at a moment or at an earlier one, and those that scopes could have
given out then. -/
def Given (start : Bench) (x : Scene) (t : Ticket) : Prop :=
  ∃ w, ReflTransGen Stride (.still start) w ∧ ReflTransGen Stride w x ∧
    (t ∈ w.bench.out ∨ ∃ i ∈ w.bench.session.opened, ∃ tapBlocking, t = w.bench.session.ticket i tapBlocking)

/-- What a reset brings about: it gets at every scope in use by way of the registry, and the
tickets of former days are of no account ever after. -/
structure Forgets (start : Bench) (x : Scene) (links : List Nat) : Prop where
  found : (x.clearedOf (x.found links)).live = x.cleared.live
  zero : ∀ sc ∈ x.cleared.live, sc.outstanding = 0 ∧ sc.outstandingTaps = 0
  stale : ∀ t, Given start x t → x.cleared.bench.session.Stale t
  fresh : ∀ i ∈ x.bench.session.opened, ∀ tapBlocking,
    ¬ x.cleared.bench.session.Stale (x.cleared.bench.session.ticket i tapBlocking)
  request : ∀ b, x = .still b → b.handle .resetScopes = .ok (x.cleared.bench, .nothing)
  later : ∀ b, x = .still b → ∀ y, ReflTransGen Stride x.cleared y → ∀ t, Given start x t →
    y.bench.session.Stale t ∧ y.bench.playback.release t = y.bench.playback

theorem cleared_session (x : Scene) : x.cleared.bench.session = x.bench.session.resetScopes := by
  rw [cleared, session, mapPlayback, resetScopes_eq_touch, touch_session]
  rfl

/-- What is in use depends on nothing but the tasks and what the bench has in hand. -/
theorem uses_of_stirs {p : Playback} (h : x.bench.playback.Stirs p) :
    uses { x with bench := { x.bench with playback := p } } = x.uses := by
  simp only [uses, machine, Bench.held, Machine.uses, Machine.stakes, h.tasks, h.agenda, h.pauses]

theorem uses_cleared (x : Scene) : x.cleared.uses = x.uses :=
  uses_of_stirs (resetScopes_eq_touch ▸ .of_touch Session.carries_resetScopes)

/-- A reset of scopes, one by one. -/
theorem foldl_resetScope (ids : List Nat) (p : Playback) :
    p.Stirs (ids.foldl (fun p i ↦ p.resetScope i) p) ∧
      (ids.foldl (fun p i ↦ p.resetScope i) p).session =
        ids.foldl (fun s i ↦ s.modifyScope i Scope.reset) p.session := by
  induction ids generalizing p with
  | nil => exact ⟨.refl p, rfl⟩
  | cons i ids ih =>
    obtain ⟨hstirs, hsession⟩ := ih (p.resetScope i)
    rw [List.foldl_cons, List.foldl_cons, hsession, resetScope_eq_touch, touch_session]
    exact ⟨(Stirs.of_touch (Session.carries_resetScope i)).trans hstirs, rfl⟩

theorem scopes_foldl_reset {ids : List Nat} (h : ids.Nodup) (s : Session) :
    (ids.foldl (fun s i ↦ s.modifyScope i Scope.reset) s).scopes =
      s.scopes.map fun sc ↦ if sc.id ∈ ids then sc.reset else sc := by
  induction ids generalizing s with
  | nil => simp
  | cons i ids ih =>
    obtain ⟨hi, hids⟩ := List.nodup_cons.mp h
    rw [List.foldl_cons, ih hids, Session.modifyScope, List.map_map]
    refine List.map_congr_left fun sc _ ↦ ?_
    by_cases he : sc.id = i
    · simp [he, hi, Scope.reset]
    · simp [he]

theorem live_clearedOf {ids : List Nat} (h : ids.Nodup) (hids : ∀ i ∈ x.bench.session.opened, i ∈ x.uses → i ∈ ids) :
    (x.clearedOf ids).live = x.cleared.live := by
  obtain ⟨hstirs, hsession⟩ := foldl_resetScope ids x.bench.playback
  have hone : (x.clearedOf ids).bench.session.scopes =
      x.bench.session.scopes.map fun sc ↦ if sc.id ∈ ids then sc.reset else sc :=
    (congrArg Session.scopes hsession).trans (scopes_foldl_reset h _)
  have hall : x.cleared.bench.session.scopes = x.bench.session.scopes.map Scope.reset := by
    rw [cleared_session]
    rfl
  have huses : (x.clearedOf ids).uses = x.uses := uses_of_stirs hstirs
  -- a reset does not change what is in use, whichever scopes it is for
  have hfilter (f : Scope → Scope) (hf : ∀ sc, (f sc).id = sc.id) :
      (x.bench.session.scopes.map f).filter (fun sc ↦ x.uses.contains sc.id) = x.live.map f := by
    rw [List.filter_map, live]
    simp only [Function.comp_def, hf]
  rw [live, live, uses_cleared, huses, hone, hall, hfilter _ fun sc ↦ by split <;> rfl, hfilter Scope.reset fun _ ↦ rfl]
  refine List.map_congr_left fun sc hsc ↦ if_pos ?_
  obtain ⟨hsc, huses⟩ := List.mem_filter.mp hsc
  exact hids sc.id (List.mem_map_of_mem hsc) (by simpa using huses)

theorem Provided.reckons (h : Provided x) : ∃ ts, x.bench.session.Reckons ts := by
  obtain ⟨lost, hreckons⟩ := h.solvent
  exact ⟨_, hreckons⟩

/-- What has been given out is known to the session. -/
theorem Given.issued {start : Bench} {t : Ticket} (hstart : Provided (still start)) (h : Given start x t) :
    x.bench.session.Issued t := by
  obtain ⟨w, hbefore, hafter, ht⟩ := h
  have hw := (hstart.strides hbefore).1
  obtain ⟨lost, hreckons⟩ := hw.solvent
  have hgrows := (hw.strides hafter).2.grows
  refine Session.Issued.grows ?_ hreckons.numbered hgrows
  rcases ht with ht | ⟨i, hi, tapBlocking, rfl⟩
  · exact hreckons.issued (List.mem_append_right _ ht)
  · exact Session.issued_ticket hreckons hi tapBlocking

theorem Given.stale {start : Bench} {t : Ticket} (hstart : Provided (still start)) (hx : Provided x)
    (h : Given start x t) : x.cleared.bench.session.Stale t := by
  obtain ⟨ts, hreckons⟩ := hx.reckons
  rw [cleared_session]
  exact (h.issued hstart).stale hreckons

/-- The scopes give out tickets of the present epoch. -/
theorem not_stale_ticket {s : Session} (hs : s.Numbered) (hi : i ∈ s.opened) (tapBlocking : Bool) :
    ¬ s.Stale (s.ticket i tapBlocking) := by
  rintro ⟨sc, hsc, hpast, -⟩
  obtain ⟨other, hother, rfl⟩ := List.mem_map.mp hi
  rw [Session.ticket_eq hs hother] at hsc hpast
  obtain rfl : other = sc := Option.some.inj ((Session.scope?_eq hs hother).symm.trans hsc)
  exact Nat.lt_irrefl _ hpast

theorem Linked.forgets {start : Bench} (hstart : Provided (still start)) (hx : Provided x)
    (h : Linked x links) : Forgets start x links where
  found := by
    refine live_clearedOf ((h.complete hx).ascending.imp fun hlt ↦ Nat.ne_of_lt hlt) fun i hi huses ↦ ?_
    rw [h.found]
    exact List.mem_filter.mpr ⟨hi, by simpa using huses⟩
  zero := by
    intro sc hsc
    have hsc := (List.mem_filter.mp hsc).1
    rw [cleared_session] at hsc
    obtain ⟨old, -, rfl⟩ := List.mem_map.mp hsc
    exact ⟨rfl, rfl⟩
  stale := fun _ ht ↦ ht.stale hstart hx
  fresh := by
    intro i hi tapBlocking
    obtain ⟨ts, hreckons⟩ := hx.reckons
    rw [cleared_session]
    refine not_stale_ticket ?_ ?_ tapBlocking
    · exact Session.numbered_resetScopes hreckons.numbered
    · rwa [Session.opened, Session.map_id_resetScopes]
  request := by
    rintro b rfl
    rfl
  later := by
    rintro b rfl y hy t ht
    have hreset : (still b).Stride (still b).cleared :=
      .request (b := b) (r := .resetScopes) (by simp) rfl
    have hgrows := ((hx.stride hreset).1.strides hy).2.grows
    have hstale := (ht.stale hstart hx).grows hgrows
    exact ⟨hstale, release_stale hstale⟩

end

/-- **The registry finds** every scope that is held, and no other, at every moment of every run,
and a reset leaves no ticket that has been given out before it of any account. -/
theorem registry_complete (config : Config) (host : Host) (voices : VoiceCache) :
    (∀ rs b, (new config host voices).follow rs = .ok b →
      ∃ links, Registers (new config host voices) (.still b) links) ∧
    ∀ x links, Registers (new config host voices) x links →
      Complete x links ∧ Forgets (new config host voices) x links := by
  have hstart := provided_new config host voices
  refine ⟨fun rs b hb ↦ ?_, fun x links h ↦ ?_⟩
  · have hr : Reaches (fun _ ↦ True) (new config host voices) b := reaches_follow (fun _ _ ↦ trivial) hb
    exact registers_of_strides .start (strides_of_reaches hstart hr)
  · obtain ⟨hx, hlinked⟩ := linked_of_registers h
    exact ⟨hlinked.complete hx, hlinked.forgets hstart hx⟩

/-- A block that is under way in a scope without a handle, a scope with nothing but a ticket, one
that has gone out of use, and one that is new. -/
def tenancies : List (Bool × Request) :=
  [(false, .scope none), (true, .perform 0 (.block [.cue (.talk ⟨"Hello.", [1], ["Ann"], none⟩)]) none),
    (false, .dropScope 0), (false, .scope none), (false, .enter 1 true), (false, .dropScope 1),
    (false, .scope none), (false, .dropScope 2), (false, .scope none)]

theorem tenancies_are_registered :
    ∃ b links, (new .standard ⟨true, true, none, fun _ _ ↦ .zero⟩ .empty).follow tenancies = .ok b ∧
      b.session.opened = [0, 1, 3, 4, 5] ∧ (still b).found links = [0, 1, 3, 5] ∧
      Complete (still b) links ∧
      Forgets (new .standard ⟨true, true, none, fun _ _ ↦ .zero⟩ .empty) (still b) links := by
  have hstate : ((new .standard ⟨true, true, none, fun _ _ ↦ .zero⟩ .empty).follow tenancies).toOption.map
      (fun b ↦ (b.session.opened, (b.playback.liveScopes b.held).map Scope.id)) =
        some ([0, 1, 3, 4, 5], [0, 1, 3, 5]) := by decide +kernel
  obtain ⟨hregisters, hlaws⟩ :=
    registry_complete .standard ⟨true, true, none, fun _ _ ↦ .zero⟩ .empty
  cases hb : (new .standard ⟨true, true, none, fun _ _ ↦ .zero⟩ .empty).follow tenancies with
  | error e => simp [hb, Except.toOption] at hstate
  | ok b =>
    simp only [hb, Except.toOption, Option.map_some, Option.some.injEq, Prod.mk.injEq] at hstate
    obtain ⟨links, hlinks⟩ := hregisters tenancies b hb
    obtain ⟨hcomplete, hforgets⟩ := hlaws (still b) links hlinks
    refine ⟨b, links, rfl, hstate.1, ?_, hcomplete, hforgets⟩
    rw [← hcomplete.live, ← hcomplete.still b rfl, hstate.2]

end Bench

end Storyline
