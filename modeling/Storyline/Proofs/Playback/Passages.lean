import Mathlib.Data.List.Pairwise
import Storyline.Playback.Basic
import Storyline.Proofs.Playback.Places

/-!
# Passages of a story

The dispatches of a playback are passages of the story, one after the other: in
each a timeline takes up one item of its list, a block with all of its parts.
Every timeline takes up its items in their order, and every action of the story
is taken up at most once.
-/

namespace Storyline

/-- A timeline: its task, its scope, and where its list stands in the story. -/
structure Strand where
  task : Nat
  scope : Nat
  home : Place
deriving DecidableEq

/-- An item of a timeline, and what has been taken up of it. -/
structure Passage where
  strand : Strand
  index : Nat
  action : Action
  told : List Dispatch

def Dispatch.item (d : Dispatch) : Action × Option Nat := (d.action, d.step)

/-- Only the items of the main timeline are steps. -/
def Strand.step (s : Strand) (n : Nat) : Option Nat := if s.home.isEmpty then some n else none

namespace Passage

def home (x : Passage) : Place := x.strand.home

def place (x : Passage) : Place := x.index :: x.home

/-- What is taken up of the item when it is performed. -/
def plan (x : Passage) : List (Action × Option Nat) := x.action.scan (x.strand.step x.index)

/-- The places of what has been taken up. -/
def places (x : Passage) : List Place := (x.action.places x.place).take x.told.length

def Whole (x : Passage) : Prop := x.told.map Dispatch.item = x.plan

def extend (d : Dispatch) (x : Passage) : Passage := { x with told := x.told ++ [d] }

end Passage

/-- The timelines of a playback, and its passages. -/
structure Chart where
  strands : List Strand
  passages : List Passage

namespace Chart

/-- The passages of the timeline of a list. -/
def along (home : Place) (c : Chart) : List Passage := c.passages.filter (·.home = home)

def count (home : Place) (c : Chart) : Nat := (c.along home).length

def places (c : Chart) : List Place := c.passages.flatMap Passage.places

/-- The chart tells all dispatches of a playback of a story, each at its place:
every passage begins with its item in the scope of the timeline, and goes on
with the parts of a block as far as it gets; a timeline plays the story or the
parts of a fork that has been taken up. -/
structure Records (actions : List Action) (dispatches : List Dispatch) (c : Chart) : Prop where
  told : dispatches = c.passages.flatMap Passage.told
  begun : ∀ x ∈ c.passages, ∃ d rest, x.told = d :: rest ∧ d.scope = x.strand.scope
  found : ∀ x ∈ c.passages, Action.at? actions x.place = some x.action
  reads : ∀ x ∈ c.passages, x.told.map Dispatch.item <+: x.plan
  inOrder : ∀ home, (c.along home).map Passage.index = List.range (c.count home)
  strand : ∀ x ∈ c.passages, x.strand ∈ c.strands
  tasks : (c.strands.map Strand.task).Nodup
  scopes : (c.strands.map Strand.scope).Nodup
  homes : (c.strands.map Strand.home).Nodup
  forked : ∀ s ∈ c.strands, s.home = [] ∨
    s.home ∈ c.places ∧ ∃ parts, Action.at? actions s.home = some (.fork parts)

section

variable {actions : List Action} {dispatches : List Dispatch} {c : Chart} {x y : Passage}
  {s : Strand} {d : Dispatch} {place : Place}

/-! ## Every action once -/

theorem nodup_place {passages : List Passage}
    (h : ∀ home : Place, ((passages.filter (·.home = home)).map Passage.index).Nodup) :
    (passages.map Passage.place).Nodup := by
  induction passages with
  | nil => exact .nil
  | cons x rest ih =>
      refine List.nodup_cons.mpr ⟨fun hmem ↦ ?_, ih fun home ↦ ?_⟩
      · obtain ⟨y, hy, hplace⟩ := List.mem_map.mp hmem
        obtain ⟨hindex, hhome⟩ := List.cons.inj hplace
        have hx := h x.home
        rw [List.filter_cons_of_pos (by simp), List.map_cons, List.nodup_cons] at hx
        exact hx.1 (List.mem_map.mpr ⟨y, List.mem_filter.mpr ⟨hy, by simpa using hhome⟩, hindex⟩)
      · exact (h home).sublist (((List.sublist_cons_self x rest).filter _).map _)

/-- What is taken up stands where the chart says. -/
theorem Records.located (h : c.Records actions dispatches) :
    List.Forall₂ (fun place d ↦ Action.at? actions place = some d.action) c.places dispatches := by
  have hpassage : ∀ x ∈ c.passages,
      List.Forall₂ (fun place (d : Dispatch) ↦ Action.at? actions place = some d.action)
        x.places x.told := by
    intro x hx
    have hall := List.forall₂_take x.told.length
      (Action.at?_places (x.strand.step x.index) (h.found x hx))
    have htold : x.plan.take x.told.length = x.told.map Dispatch.item := by
      have := (List.prefix_iff_eq_take.mp (h.reads x hx)).symm
      rwa [List.length_map] at this
    have hall : List.Forall₂ _ x.places (x.plan.take x.told.length) := hall
    rw [htold, List.forall₂_map_right_iff] at hall
    exact hall
  rw [h.told, places]
  generalize c.passages = passages at hpassage
  induction passages with
  | nil => exact .nil
  | cons x rest ih =>
      exact List.rel_append (hpassage x (by simp))
        (ih fun y hy ↦ hpassage y (List.mem_cons_of_mem x hy))

/-- The passages of different items have nothing in common: only blocks are
entered, and no timeline plays the parts of a block. -/
theorem Records.disjoint (h : c.Records actions dispatches) (hx : x ∈ c.passages)
    (hy : y ∈ c.passages) (hne : x.place ≠ y.place) (hlength : x.home.length ≤ y.home.length) :
    List.Disjoint x.places y.places := by
  intro place hmem hmem'
  have hx' := List.mem_of_mem_take hmem
  have hy' := List.mem_of_mem_take hmem'
  have habove : x.place <:+ y.place :=
    List.suffix_of_suffix_length_le (Action.suffix_of_mem_places hx')
      (Action.suffix_of_mem_places hy') (Nat.succ_le_succ hlength)
  have hhome : x.place <:+ y.home := (List.suffix_cons_iff.mp habove).resolve_left hne
  obtain ⟨parts, hblock⟩ := Action.exists_block_above (h.found x hx) hx' hhome
    (Action.suffix_of_mem_places hy')
  rcases h.forked y.strand (h.strand y hy) with hroot | ⟨-, parts', hfork⟩
  · rw [Passage.home, hroot] at hblock
    cases hblock
  · rw [Passage.home, hfork] at hblock
    cases hblock

/-- No action of the story is taken up twice. -/
theorem Records.nodup_places (h : c.Records actions dispatches) : c.places.Nodup := by
  refine List.nodup_flatMap.mpr ⟨fun x _ ↦ ?_, ?_⟩
  · exact (Action.nodup_places x.action x.place).sublist (List.take_sublist _ _)
  · have hplace : (c.passages.map Passage.place).Nodup :=
      nodup_place fun home ↦ (h.inOrder home).symm ▸ List.nodup_range
    refine (List.pairwise_map.mp hplace).imp_of_mem fun {x y} hx hy hne ↦ ?_
    rcases Nat.le_total x.home.length y.home.length with hle | hle
    · exact h.disjoint hx hy hne hle
    · exact fun _ hmem hmem' ↦ h.disjoint hy hx (Ne.symm hne) hle hmem' hmem

/-! ## Going on -/

theorem mem_along {home : Place} : x ∈ c.along home ↔ x ∈ c.passages ∧ x.home = home := by
  simp [along]

/-- An item that a timeline takes up. -/
def begin (s : Strand) (action : Action) (d : Dispatch) (c : Chart) : Chart :=
  { c with passages := c.passages ++ [⟨s, c.count s.home, action, [d]⟩] }

theorem along_begin {action : Action} (home : Place) :
    (c.begin s action d).along home =
      c.along home ++ if s.home = home then [⟨s, c.count s.home, action, [d]⟩] else [] := by
  by_cases hhome : s.home = home <;> simp [along, begin, Passage.home, hhome]

theorem Records.begins (h : c.Records actions dispatches) (hs : s ∈ c.strands) {action : Action}
    (haction : (Action.partsAt actions s.home)[c.count s.home]? = some action)
    (hscope : d.scope = s.scope) (hitem : d.item = (action, s.step (c.count s.home))) :
    (c.begin s action d).Records actions (dispatches ++ [d]) := by
  have hscan : ∃ rest, action.scan (s.step (c.count s.home)) = d.item :: rest := by
    rw [hitem]
    cases action <;> exact ⟨_, rfl⟩
  have hnew : ∀ {P : Passage → Prop}, (∀ x ∈ c.passages, P x) →
      P ⟨s, c.count s.home, action, [d]⟩ → ∀ x ∈ (c.begin s action d).passages, P x := by
    intro P hold hlast x hx
    rcases List.mem_append.mp hx with hx | hx
    · exact hold x hx
    · exact List.mem_singleton.mp hx ▸ hlast
  constructor
  case told => simp [begin, h.told]
  case begun => exact hnew h.begun ⟨d, [], rfl, hscope⟩
  case found => exact hnew h.found haction
  case reads =>
    refine hnew h.reads ?_
    obtain ⟨rest, hrest⟩ := hscan
    exact ⟨rest, hrest.symm⟩
  case inOrder =>
    intro home
    rw [count, along_begin]
    by_cases hhome : s.home = home
    · subst hhome
      simp [h.inOrder, List.range_succ, count]
    · simp [hhome, h.inOrder, count]
  case strand => exact hnew h.strand hs
  case tasks => exact h.tasks
  case scopes => exact h.scopes
  case homes => exact h.homes
  case forked =>
    refine fun s hs ↦ (h.forked s hs).imp_right fun ⟨hmem, hfork⟩ ↦ ⟨?_, hfork⟩
    simp only [places, begin, List.flatMap_append]
    exact List.mem_append_left _ hmem

theorem places_begin {action : Action} :
    (c.begin s action d).places = c.places ++ [c.count s.home :: s.home] := by
  have hfirst : ∀ place : Place, (action.places place).take 1 = [place] := by
    intro place
    cases action <;> simp [Action.places]
  simp [places, begin, Passage.places, Passage.place, Passage.home, hfirst]

section

variable {before : List Passage}

/-- The last passage goes on. -/
def resume (before : List Passage) (x : Passage) (d : Dispatch) (c : Chart) : Chart :=
  { c with passages := before ++ [x.extend d] }

theorem along_resume (home : Place) :
    (c.resume before x d).along home =
      before.filter (·.home = home) ++ if x.home = home then [x.extend d] else [] := by
  have hsame : (x.extend d).home = x.home := rfl
  by_cases hhome : x.home = home <;> simp [along, resume, hsame, hhome]

theorem count_resume (hlast : c.passages = before ++ [x]) (home : Place) :
    (c.resume before x d).count home = c.count home := by
  have hsame : (x.extend d).home = x.home := rfl
  by_cases hhome : x.home = home <;> simp [count, along, resume, hlast, hsame, hhome]

theorem along_resume_ne (hlast : c.passages = before ++ [x]) {home : Place} (hne : x.home ≠ home) :
    (c.resume before x d).along home = c.along home := by
  rw [along_resume, if_neg hne, along, hlast]
  simp [hne]

theorem Records.last_mem (hlast : c.passages = before ++ [x]) : x ∈ c.passages := by
  rw [hlast]
  exact List.mem_append_right _ (List.mem_singleton.mpr rfl)

theorem places_resume (h : c.Records actions dispatches) (hlast : c.passages = before ++ [x])
    (hplan : (x.told ++ [d]).map Dispatch.item <+: x.plan) :
    ∃ place, (c.resume before x d).places = c.places ++ [place] := by
  have hlength : x.told.length < (x.action.places x.place).length := by
    rw [Action.length_places (h.found x (Records.last_mem hlast)) (x.strand.step x.index)]
    have hle := hplan.length_le
    rwa [List.length_map, List.length_append] at hle
  have hplaces : (x.extend d).places = x.places ++ [(x.action.places x.place)[x.told.length]] := by
    simp only [Passage.places, Passage.extend, Passage.place, Passage.home, List.length_append,
      List.length_singleton]
    exact List.take_succ_eq_append_getElem hlength
  refine ⟨(x.action.places x.place)[x.told.length], ?_⟩
  simp only [places, resume, hlast, List.flatMap_append, List.flatMap_singleton, hplaces,
    List.append_assoc]

theorem Records.resumes (h : c.Records actions dispatches) (hlast : c.passages = before ++ [x])
    (hplan : (x.told ++ [d]).map Dispatch.item <+: x.plan) :
    (c.resume before x d).Records actions (dispatches ++ [d]) := by
  have hkept : ∀ {P : Passage → Prop}, (∀ y ∈ c.passages, P y) → P (x.extend d) →
      ∀ y ∈ (c.resume before x d).passages, P y := by
    intro P hold hnew y hy
    rcases List.mem_append.mp hy with hy | hy
    · exact hold y (hlast ▸ List.mem_append_left _ hy)
    · exact List.mem_singleton.mp hy ▸ hnew
  have hx := Records.last_mem hlast
  obtain ⟨place, hplaces⟩ := places_resume h hlast hplan
  constructor
  case told => simp [resume, Passage.extend, h.told, hlast]
  case begun =>
    obtain ⟨e, rest, htold, hscope⟩ := h.begun x hx
    exact hkept h.begun ⟨e, rest ++ [d], by simp [Passage.extend, htold], hscope⟩
  case found => exact hkept h.found (h.found x hx)
  case reads => exact hkept h.reads hplan
  case inOrder =>
    intro home
    rw [count_resume hlast, along_resume, ← h.inOrder home, along, hlast]
    by_cases hhome : x.home = home <;> simp [hhome, Passage.extend]
  case strand => exact hkept h.strand (h.strand x hx)
  case tasks => exact h.tasks
  case scopes => exact h.scopes
  case homes => exact h.homes
  case forked =>
    refine fun s hs ↦ (h.forked s hs).imp_right fun ⟨hmem, hfork⟩ ↦ ⟨?_, hfork⟩
    rw [hplaces]
    exact List.mem_append_left _ hmem

end

/-- A fork that has been taken up plays its parts in a timeline of its own. -/
def fork (s : Strand) (c : Chart) : Chart := { c with strands := c.strands ++ [s] }

theorem Records.at?_last {places : List Place} (h : c.Records actions (dispatches ++ [d]))
    (hplaces : c.places = places ++ [place]) : Action.at? actions place = some d.action := by
  have hlocated := h.located
  rw [hplaces, ← List.forall₂_reverse_iff, List.reverse_append, List.reverse_append] at hlocated
  exact (List.forall₂_cons.mp hlocated).1

/-- The place of the fork taken up last is new, so its list has no timeline yet. -/
theorem Records.forks {places : List Place} (h : c.Records actions (dispatches ++ [d]))
    (hplaces : c.places = places ++ [place])
    (hold : ∀ s ∈ c.strands, s.home = [] ∨ s.home ∈ places) {parts : List Action}
    (hfork : d.action = .fork parts) {task scope : Nat}
    (htask : ∀ s ∈ c.strands, s.task ≠ task) (hscope : ∀ s ∈ c.strands, s.scope ≠ scope) :
    (c.fork ⟨task, scope, place⟩).Records actions (dispatches ++ [d]) := by
  have hat : Action.at? actions place = some (.fork parts) := hfork ▸ h.at?_last hplaces
  have hnew : ∀ s ∈ c.strands, s.home ≠ place := by
    rintro s hs rfl
    rcases hold s hs with hroot | hmem
    · rw [hroot] at hat
      cases hat
    · have hnodup := h.nodup_places
      rw [hplaces, List.nodup_append] at hnodup
      exact hnodup.2.2 _ hmem _ (List.mem_singleton.mpr rfl) rfl
  have hunused : ∀ {α : Type} (f : Strand → α), (c.strands.map f).Nodup →
      (∀ s ∈ c.strands, f s ≠ f ⟨task, scope, place⟩) →
      ((c.fork ⟨task, scope, place⟩).strands.map f).Nodup := by
    intro α f hnodup hne
    rw [fork, List.map_append, List.map_singleton, List.nodup_append]
    refine ⟨hnodup, List.nodup_singleton _, fun a ha b hb hab ↦ ?_⟩
    obtain ⟨s, hs, rfl⟩ := List.mem_map.mp ha
    exact hne s hs (hab.trans (List.mem_singleton.mp hb))
  exact
    { h with
      strand := fun x hx ↦ List.mem_append_left _ (h.strand x hx)
      tasks := hunused _ h.tasks htask
      scopes := hunused _ h.scopes hscope
      homes := hunused _ h.homes hnew
      forked := fun s hs ↦ by
        rcases List.mem_append.mp hs with hs | hs
        · exact h.forked s hs
        · rw [List.mem_singleton.mp hs]
          refine .inr ⟨?_, parts, hat⟩
          change place ∈ c.places
          simp [hplaces] }

end

end Chart

end Storyline
