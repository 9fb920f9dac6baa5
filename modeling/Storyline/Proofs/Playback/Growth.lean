import Storyline.Proofs.Playback.Handling

/-!
# How sessions grow

Whatever is done to a session, scopes are only added to it, in the order of their numbers,
and the epochs of their counts only rise.  A ticket of a former epoch never counts again.
-/

namespace Storyline

open Relation

namespace Session

/-- The numbers of the scopes that have been opened, in this order. -/
def opened (s : Session) : List Nat := s.scopes.map Scope.id

structure Grows (s s' : Session) : Prop where
  serial : s.serial ≤ s'.serial
  opens : ∃ new, s'.opened = s.opened ++ new ∧ new.Pairwise (· < ·) ∧
    ∀ i ∈ new, s.serial ≤ i ∧ i < s'.serial
  epochs : ∀ i sc, s.scope? i = some sc → ∃ sc', s'.scope? i = some sc' ∧
    sc.actions.epoch ≤ sc'.actions.epoch ∧ sc.taps.epoch ≤ sc'.taps.epoch

variable {s s' s'' : Session} {t : Ticket} {ts : List Ticket} {loses : Prop}

namespace Grows

theorem of_scopes (hscopes : s'.scopes = s.scopes) (hserial : s.serial ≤ s'.serial) : s.Grows s' where
  serial := hserial
  opens := ⟨[], by rw [opened, hscopes, List.append_nil, opened], .nil, nofun⟩
  epochs := fun i sc hsc ↦
    ⟨sc, by rwa [scope?, hscopes], Nat.le_refl _, Nat.le_refl _⟩

theorem refl (s : Session) : s.Grows s := .of_scopes rfl (Nat.le_refl _)

theorem trans (h : s.Grows s') (h' : s'.Grows s'') : s.Grows s'' := by
  obtain ⟨new, hnew, hasc, hfresh⟩ := h.opens
  obtain ⟨new', hnew', hasc', hfresh'⟩ := h'.opens
  refine ⟨Nat.le_trans h.serial h'.serial, ⟨new ++ new', ?_, ?_, fun i hi ↦ ?_⟩, fun i sc hsc ↦ ?_⟩
  · rw [hnew', hnew, List.append_assoc]
  · refine List.pairwise_append.mpr ⟨hasc, hasc', fun i hi j hj ↦ ?_⟩
    exact Nat.lt_of_lt_of_le (hfresh i hi).2 (hfresh' j hj).1
  · rcases List.mem_append.mp hi with hi | hi
    · exact (hfresh i hi).imp_right fun hlt ↦ Nat.lt_of_lt_of_le hlt h'.serial
    · exact (hfresh' i hi).imp_left fun hle ↦ Nat.le_trans h.serial hle
  · obtain ⟨sc', hsc', hactions, htaps⟩ := h.epochs i sc hsc
    obtain ⟨sc'', hsc'', hactions', htaps'⟩ := h'.epochs i sc' hsc'
    exact ⟨sc'', hsc'', Nat.le_trans hactions hactions', Nat.le_trans htaps htaps'⟩

/-- What has been opened stays so, and what is new has a number of its own. -/
theorem subset (h : s.Grows s') : s.opened ⊆ s'.opened := by
  obtain ⟨new, hnew, -⟩ := h.opens
  exact hnew ▸ List.subset_append_left _ _

theorem ascending (h : s.Grows s') (hs : s.opened.Pairwise (· < ·)) (hlt : ∀ i ∈ s.opened, i < s.serial) :
    s'.opened.Pairwise (· < ·) := by
  obtain ⟨new, hnew, hasc, hfresh⟩ := h.opens
  rw [hnew]
  exact List.pairwise_append.mpr
    ⟨hs, hasc, fun i hi j hj ↦ Nat.lt_of_lt_of_le (hlt i hi) (hfresh j hj).1⟩

end Grows

theorem grows_modifyScope {id : Nat} {f : Scope → Scope} (hf : ∀ sc, (f sc).id = sc.id)
    (hepochs : ∀ sc, sc.actions.epoch ≤ (f sc).actions.epoch ∧ sc.taps.epoch ≤ (f sc).taps.epoch) :
    s.Grows (s.modifyScope id f) where
  serial := Nat.le_refl _
  opens := ⟨[], by rw [opened, map_id_modifyScope hf, List.append_nil, opened], .nil, nofun⟩
  epochs := by
    intro i sc hsc
    rw [scope?_modifyScope hf]
    split
    next he =>
      subst he
      exact ⟨f sc, by rw [hsc, Option.map_some], hepochs sc⟩
    · exact ⟨sc, hsc, Nat.le_refl _, Nat.le_refl _⟩

theorem scope?_resetScopes (s : Session) (i : Nat) :
    s.resetScopes.scope? i = (s.scope? i).map Scope.reset := by
  simp only [scope?, resetScopes, List.find?_map]
  rfl

theorem grows_resetScopes : s.Grows s.resetScopes where
  serial := Nat.le_refl _
  opens := ⟨[], by rw [opened, map_id_resetScopes, List.append_nil, opened], .nil, nofun⟩
  epochs := fun i sc hsc ↦
    ⟨sc.reset, by rw [scope?_resetScopes, hsc, Option.map_some], Nat.le_succ _, Nat.le_succ _⟩

theorem grows_openScope (parent : Option Nat) : s.Grows (s.openScope parent).2 where
  serial := Nat.le_succ _
  opens := ⟨[s.serial], by simp [opened, openScope, Scope.fresh], List.pairwise_singleton _ _,
    by simp [openScope]⟩
  epochs := fun i sc hsc ↦ ⟨sc, by
    rw [scope?, openScope, List.find?_append]
    rw [scope?] at hsc
    rw [hsc, Option.some_or], Nat.le_refl _, Nat.le_refl _⟩

/-! ## Tickets of former epochs -/

/-- A ticket of a former epoch of its scope. -/
def Stale (s : Session) (t : Ticket) : Prop :=
  ∃ sc, s.scope? t.scope = some sc ∧ t.epoch < sc.actions.epoch ∧
    ∀ epoch, t.tapEpoch = some epoch → epoch < sc.taps.epoch

theorem Stale.grows (h : s.Stale t) (hg : s.Grows s') : s'.Stale t := by
  obtain ⟨sc, hsc, hactions, htaps⟩ := h
  obtain ⟨sc', hsc', hle, hle'⟩ := hg.epochs t.scope sc hsc
  exact ⟨sc', hsc', Nat.lt_of_lt_of_le hactions hle,
    fun epoch htap ↦ Nat.lt_of_lt_of_le (htaps epoch htap) hle'⟩

/-- A ticket that has been given out stays given out. -/
theorem Issued.grows (h : s.Issued t) (hs : s.Numbered) (hg : s.Grows s') : s'.Issued t := by
  obtain ⟨sc, hsc, hid, hpast, heven⟩ := h
  obtain ⟨sc', hsc', hle, -⟩ := hg.epochs sc.id sc (scope?_eq hs hsc)
  exact ⟨sc', List.mem_of_find?_eq_some hsc', (by simpa using List.find?_some hsc' : sc'.id = sc.id).trans hid,
    Nat.le_trans hpast hle, heven⟩

namespace Reckons

theorem level (h : s.Reckons ts) {sc : Scope} (hsc : sc ∈ s.scopes) : sc.taps.epoch = sc.actions.epoch := by
  obtain ⟨k, hk⟩ := h
  exact (hk.balanced sc hsc).level

theorem issued (h : s.Reckons ts) (ht : t ∈ ts) : s.Issued t := by
  obtain ⟨k, hk⟩ := h
  exact hk.issued t ht

/-- A single scope is reset. -/
theorem resetScope (h : s.Reckons ts) (id : Nat) : (s.modifyScope id Scope.reset).Reckons ts := by
  have hnumbered : (s.modifyScope id Scope.reset).Numbered := numbered_modifyScope (fun _ ↦ rfl) h.numbered
  obtain ⟨k, hk⟩ := h
  refine ⟨k, { hk with numbered := ?_, balanced := fun sc hsc ↦ ?_, issued := fun t ht ↦ ?_, unreset := nofun }⟩
  · exact ⟨hnumbered.nodup, hnumbered.lt⟩
  · obtain ⟨old, hold, rfl⟩ := List.mem_map.mp hsc
    split
    · refine (hk.balanced old hold).reset fun t ht he ↦ ?_
      obtain ⟨sc, hsc, hid, hpast, -⟩ := hk.issued t ht
      rwa [hk.numbered.eq_of_id hsc hold (hid.trans he)] at hpast
    · exact hk.balanced old hold
  · obtain ⟨sc, hsc, hid, hpast, heven⟩ := hk.issued t ht
    refine ⟨_, List.mem_map_of_mem hsc, ?_, ?_, heven⟩ <;> split
    · exact hid
    · exact hid
    · exact Nat.le_succ_of_le hpast
    · exact hpast

end Reckons

/-- After a reset every ticket is stale that has been given out before. -/
theorem Issued.stale (h : s.Issued t) (hs : s.Reckons ts) : s.resetScopes.Stale t := by
  obtain ⟨sc, hsc, hid, hpast, heven⟩ := h
  have hlevel := hs.level hsc
  refine ⟨sc.reset, ?_, Nat.lt_succ_of_le hpast, fun epoch htap ↦ ?_⟩
  · rw [scope?_resetScopes, ← hid, scope?_eq hs.numbered hsc, Option.map_some]
  · rw [heven epoch htap]
    exact Nat.lt_succ_of_le (hlevel ▸ hpast)

/-- What a scope gives out is given out. -/
theorem issued_ticket {id : Nat} (hs : s.Reckons ts) (hid : id ∈ s.opened) (tapBlocking : Bool) :
    s.Issued (s.ticket id tapBlocking) := by
  obtain ⟨sc, hsc, rfl⟩ := List.mem_map.mp hid
  rw [ticket_eq hs.numbered hsc]
  refine ⟨sc, hsc, rfl, Nat.le_refl _, fun epoch htap ↦ ?_⟩
  cases tapBlocking
  · cases htap
  · exact (Option.some.inj htap).symm.trans (hs.level hsc)

end Session

namespace Playback

open Session (Handling)

variable {p q : Playback} {t : Ticket} {hand hand' : List Ticket} {loses : Prop}

theorem grows_enter (scope : Nat) (tapBlocking : Bool) :
    p.session.Grows (p.enter scope tapBlocking).session := by
  rw [enter_eq_touch, touch_session]
  refine Session.grows_modifyScope (Scope.enter_id _) fun sc ↦ ?_
  cases tapBlocking <;> exact ⟨Nat.le_refl _, Nat.le_refl _⟩

theorem grows_releaseCount (scope : Nat) (tally : Tally) (epoch : Nat) :
    p.session.Grows (p.releaseCount scope tally epoch).session := by
  unfold releaseCount
  split
  · exact .refl _
  split
  · rw [update_raise_eq_touch, touch_session]
    refine Session.grows_modifyScope (fun sc ↦ by cases tally <;> rfl) fun sc ↦ ?_
    cases tally <;> simp [Scope.modify]
  · exact .refl _

theorem grows_release (t : Ticket) : p.session.Grows (p.release t).session := by
  unfold release
  cases t.tapEpoch with
  | none => exact grows_releaseCount _ _ _
  | some epoch => exact (grows_releaseCount _ _ _).trans (grows_releaseCount _ _ _)

theorem grows_handling {x y : Session × List Ticket} (h : Handling loses x y) : x.1.Grows y.1 := by
  cases h with
  | apart scopes serial => exact .of_scopes scopes serial
  | enter tapBlocking => exact grows_enter _ tapBlocking
  | release => exact grows_release _
  | reset => exact Session.grows_resetScopes
  | opens parent => exact Session.grows_openScope parent
  | order | lose => exact .refl _

theorem Handles.grows (h : Handles loses hand hand' p q) : p.session.Grows q.session := by
  have hgrows (x y : Session × List Ticket) (h : ReflTransGen (Handling loses) x y) : x.1.Grows y.1 := by
    induction h with
    | refl => exact .refl _
    | tail _ hop ih => exact ih.trans (grows_handling hop)
  exact hgrows _ _ h

theorem releaseCount_past {scope : Nat} {tally : Tally} {epoch : Nat} {sc : Scope}
    (hsc : p.session.scope? scope = some sc) (hpast : epoch < (sc.counter tally).epoch) :
    p.releaseCount scope tally epoch = p := by
  have hcounts : (sc.counter tally).counts epoch = false := by
    have hne : (sc.counter tally).epoch ≠ epoch := Nat.ne_of_gt hpast
    simp [Counter.counts, hne]
  simp only [releaseCount, hsc, hcounts, Bool.false_eq_true, if_false]

/-- The release of a stale ticket changes nothing at all. -/
theorem release_stale (h : p.session.Stale t) : p.release t = p := by
  obtain ⟨sc, hsc, hactions, htaps⟩ := h
  unfold release
  cases htap : t.tapEpoch with
  | none => exact releaseCount_past hsc hactions
  | some epoch =>
      have hpast : p.releaseCount t.scope .taps epoch = p := releaseCount_past hsc (htaps epoch htap)
      dsimp only
      rw [hpast]
      exact releaseCount_past hsc hactions

/-- Tickets in hand meanwhile stay in hand. -/
theorem Handles.frame (h : Handles loses [] [] p q) (hand : List Ticket) : Handles loses hand hand p q := by
  have hstep (x y : Session × List Ticket) (h : Handling loses x y) :
      Handling loses (x.1, x.2 ++ hand) (y.1, y.2 ++ hand) := by
    cases h with
    | apart scopes serial => exact .apart scopes serial
    | order h => exact .order (h.append_right hand)
    | enter tapBlocking hscope => exact .enter tapBlocking hscope
    | release => exact .release
    | reset => exact .reset
    | opens parent => exact .opens parent
    | lose h => exact .lose h
  have hsteps (x y : Session × List Ticket) (h : ReflTransGen (Handling loses) x y) :
      ReflTransGen (Handling loses) (x.1, x.2 ++ hand) (y.1, y.2 ++ hand) := by
    induction h with
    | refl => exact .refl
    | tail _ hop ih => exact ih.tail (hstep _ _ hop)
  have hframed : ReflTransGen (Handling loses) (p.session, p.tickets ++ hand) (q.session, q.tickets ++ hand) :=
    hsteps _ _ h
  exact (hframed.head (.order List.perm_append_comm)).tail (.order List.perm_append_comm)

end Playback

end Storyline
