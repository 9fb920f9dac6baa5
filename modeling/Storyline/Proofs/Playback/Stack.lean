import Mathlib.Data.List.TakeWhile
import Storyline.Proofs.Playback.Covers
import Storyline.Proofs.Playback.Losses
import Storyline.Proofs.Playback.Tolls

/-!
# The stack of parked actions

Parked actions lie on the stack in the order of their numbers, and each of them is
live for as long as somebody waits for it.  A part of a turn takes off the stack
what is not waited for any more and puts on it what it parks; only a task that
fails leaves dead actions behind.
-/

namespace Storyline

namespace Session

/-- The stack as those see it who wait for what lies on it. -/
structure Stacked (waiting : List Nat) (s : Session) : Prop where
  single : waiting.Nodup
  numbered : ∀ id ∈ waiting, id < s.serial
  ascending : s.taps.Pairwise (fun t u ↦ t.id < u.id)
  issued : ∀ t ∈ s.taps, t.id < s.serial
  live : ∀ t ∈ s.taps, t.live = true ↔ t.id ∈ waiting

/-- Nothing has come onto the stack but what has been parked in between. -/
structure Stacks (s s' : Session) : Prop where
  serial : s.serial ≤ s'.serial
  taps : ∀ t ∈ s'.taps, t ∈ s.taps ∨ s.serial ≤ t.id ∧ t.live = true

/-- What is not on the stack does not come back to it. -/
structure Onward (s s' : Session) : Prop where
  serial : s.serial ≤ s'.serial
  spent : ∀ id, id < s.serial → s.isParked id = false → s'.isParked id = false

variable {s s' s'' : Session} {waiting waiting' : List Nat} {id : Nat}

theorem mem_of_isParked (h : s.isParked id = true) : ∃ t ∈ s.taps, t.id = id := by
  obtain ⟨t, ht, he⟩ := List.any_eq_true.mp h
  exact ⟨t, ht, by simpa using he⟩

theorem isParked_of_mem {t : Parked} (ht : t ∈ s.taps) : s.isParked t.id = true :=
  List.any_eq_true.mpr ⟨t, ht, by simp⟩

theorem Stacks.of_sublist (hserial : s.serial ≤ s'.serial) (htaps : s'.taps.Sublist s.taps) :
    s.Stacks s' := ⟨hserial, fun _ ht ↦ .inl (htaps.subset ht)⟩

theorem Stacks.trans (h : s.Stacks s') (h' : s'.Stacks s'') : s.Stacks s'' where
  serial := Nat.le_trans h.serial h'.serial
  taps := by
    intro t ht
    rcases h'.taps t ht with ht | ⟨hle, hlive⟩
    · exact h.taps t ht
    · exact .inr ⟨Nat.le_trans h.serial hle, hlive⟩

theorem stacks_park : s.Stacks s.park.2 where
  serial := Nat.le_succ _
  taps := by
    intro t ht
    refine (List.mem_append.mp ht).imp_right fun ht ↦ ?_
    rw [List.mem_singleton.mp ht]
    exact ⟨Nat.le_refl _, rfl⟩

theorem isParked_eq_false : s.isParked id = false ↔ id ∉ s.taps.map Parked.id := by
  simp [isParked]

theorem Onward.trans (h : s.Onward s') (h' : s'.Onward s'') : s.Onward s'' :=
  ⟨Nat.le_trans h.serial h'.serial, fun id hid hp ↦
    h'.spent id (Nat.lt_of_lt_of_le hid h.serial) (h.spent id hid hp)⟩

theorem Onward.of_ids (hserial : s.serial ≤ s'.serial)
    (hids : s'.taps.map Parked.id = s.taps.map Parked.id) : s.Onward s' :=
  ⟨hserial, fun id _ hp ↦ by rwa [isParked_eq_false, hids, ← isParked_eq_false]⟩

theorem Stacks.onward (h : s.Stacks s') : s.Onward s' := by
  refine ⟨h.serial, fun id hid hp ↦ ?_⟩
  by_contra hparked
  obtain ⟨t, ht, rfl⟩ := mem_of_isParked (by simpa using hparked)
  rcases h.taps t ht with ht | ⟨hle, -⟩
  · rw [isParked_of_mem ht] at hp
    cases hp
  · omega

namespace Stacked

theorem perm (h : s.Stacked waiting) (hperm : waiting'.Perm waiting) : s.Stacked waiting' where
  single := hperm.nodup_iff.mpr h.single
  numbered := fun id hid ↦ h.numbered id (hperm.mem_iff.mp hid)
  ascending := h.ascending
  issued := h.issued
  live := fun t ht ↦ (h.live t ht).trans hperm.mem_iff.symm

theorem of_sublist (h : s.Stacked waiting) (hserial : s.serial ≤ s'.serial)
    (htaps : s'.taps.Sublist s.taps) : s'.Stacked waiting where
  single := h.single
  numbered := fun id hid ↦ Nat.lt_of_lt_of_le (h.numbered id hid) hserial
  ascending := h.ascending.sublist htaps
  issued := fun t ht ↦ Nat.lt_of_lt_of_le (h.issued t (htaps.subset ht)) hserial
  live := fun t ht ↦ h.live t (htaps.subset ht)

theorem park (h : s.Stacked waiting) : s.park.2.Stacked (s.serial :: waiting) where
  single := List.nodup_cons.mpr ⟨fun hid ↦ Nat.lt_irrefl _ (h.numbered _ hid), h.single⟩
  numbered := by
    intro id hid
    rcases List.mem_cons.mp hid with rfl | hid
    · exact Nat.lt_succ_self _
    · exact Nat.lt_succ_of_lt (h.numbered id hid)
  ascending := by
    refine List.pairwise_append.mpr ⟨h.ascending, List.pairwise_singleton _ _, fun t ht u hu ↦ ?_⟩
    rw [List.mem_singleton.mp hu]
    exact h.issued t ht
  issued := by
    intro t ht
    rcases List.mem_append.mp ht with ht | ht
    · exact Nat.lt_succ_of_lt (h.issued t ht)
    · rw [List.mem_singleton.mp ht]
      exact Nat.lt_succ_self _
  live := by
    intro t ht
    rcases List.mem_append.mp ht with ht | ht
    · have hne : t.id ≠ s.serial := Nat.ne_of_lt (h.issued t ht)
      rw [h.live t ht, List.mem_cons, or_iff_right hne]
    · rw [List.mem_singleton.mp ht]
      simp

/-- Those whose action is not on the stack any more need not be counted. -/
theorem vacate (h : s.Stacked waiting) (hsub : waiting'.Sublist waiting)
    (hgone : ∀ id ∈ waiting, id ∉ waiting' → s.isParked id = false) : s.Stacked waiting' where
  single := h.single.sublist hsub
  numbered := fun id hid ↦ h.numbered id (hsub.subset hid)
  ascending := h.ascending
  issued := h.issued
  live := by
    intro t ht
    rw [h.live t ht]
    refine ⟨fun hid ↦ ?_, fun hid ↦ hsub.subset hid⟩
    by_contra hnot
    have := hgone _ hid hnot
    rw [isParked_of_mem ht] at this
    cases this

/-- No two actions on the stack have one number. -/
theorem eq_of_id {t u : Parked} (h : s.Stacked waiting) (ht : t ∈ s.taps) (hu : u ∈ s.taps)
    (he : u.id = t.id) : u = t := by
  have hnodup : (s.taps.map Parked.id).Nodup :=
    List.pairwise_map.mpr (h.ascending.imp fun hlt ↦ Nat.ne_of_lt hlt)
  exact List.inj_on_of_nodup_map hnodup hu ht he

/-- An action that nobody waits for any more is dead. -/
theorem abandon (h : s.Stacked (id :: waiting)) : (s.abandon id).Stacked waiting := by
  obtain ⟨hnot, hsingle⟩ := List.nodup_cons.mp h.single
  have hmem : ∀ t ∈ (s.abandon id).taps, ∃ old ∈ s.taps, t.id = old.id ∧
      (t.live = true ↔ old.live = true ∧ old.id ≠ id) := by
    intro t ht
    obtain ⟨old, hold, rfl⟩ := List.mem_map.mp ht
    refine ⟨old, hold, ?_⟩
    by_cases he : old.id = id <;> simp [he]
  refine ⟨hsingle, fun other ho ↦ h.numbered other (List.mem_cons_of_mem _ ho), ?_, ?_, ?_⟩
  · refine List.pairwise_map.mpr (h.ascending.imp fun hlt ↦ ?_)
    split <;> split <;> exact hlt
  · intro t ht
    obtain ⟨old, hold, hid, -⟩ := hmem t ht
    exact hid ▸ h.issued old hold
  · intro t ht
    obtain ⟨old, hold, hid, hlive⟩ := hmem t ht
    rw [hlive, h.live old hold, hid, List.mem_cons]
    constructor
    · rintro ⟨he | hin, hne⟩
      · exact absurd he hne
      · exact hin
    · exact fun hin ↦ ⟨.inr hin, fun he ↦ hnot (he ▸ hin)⟩

end Stacked

/-! ## The latest live action -/

/-- A stack has a latest live action, or all that lies on it is dead. -/
theorem taps_cases (s : Session) :
    (∃ below t dead, s.taps = below ++ t :: dead ∧ t.live = true ∧ (∀ d ∈ dead, d.live = false) ∧
      s.nextTap = some t.id ∧ s.takeTap = { s with taps := below }) ∨
    ((∀ t ∈ s.taps, t.live = false) ∧ s.nextTap = none ∧ s.takeTap = { s with taps := [] }) := by
  have hdead : ∀ t ∈ s.taps.reverse.takeWhile (fun t ↦ !t.live), t.live = false := fun t ht ↦ by
    simpa using List.mem_takeWhile_imp ht
  have hsplit : s.taps = (s.taps.reverse.dropWhile (fun t ↦ !t.live)).reverse ++
      (s.taps.reverse.takeWhile (fun t ↦ !t.live)).reverse := by
    rw [← List.reverse_append, List.takeWhile_append_dropWhile, List.reverse_reverse]
  unfold nextTap takeTap
  cases hdrop : s.taps.reverse.dropWhile (fun t ↦ !t.live) with
  | nil =>
      refine .inr ⟨fun t ht ↦ ?_, rfl, rfl⟩
      rw [hsplit, hdrop] at ht
      exact hdead t (by simpa using ht)
  | cons t rest =>
      rw [hdrop, List.reverse_cons, List.append_assoc] at hsplit
      have hlive : t.live = true := by
        have hhead := List.head_dropWhile_not (fun t : Parked ↦ !t.live) (l := s.taps.reverse) (by simp [hdrop])
        simpa [hdrop] using hhead
      exact .inl ⟨rest.reverse, t, _, hsplit, hlive, fun d hd ↦ hdead d (List.mem_reverse.mp hd), rfl,
        rfl⟩

theorem takeTap_sublist (s : Session) : s.takeTap.taps.Sublist s.taps := by
  conv_rhs => rw [taps_eq_takeTap_append]
  exact List.sublist_append_left _ _

end Session

namespace Playback

/-- The stack of a playback: others wait for parked actions, and so do the pauses
of the tasks; within a turn some parked actions may be in hand. -/
structure Stacked (others hand : List Nat) (p : Playback) : Prop where
  stack : p.session.Stacked (hand ++ (others ++ p.parks))
  /-- After the end of the session no task waits for what is still on the stack. -/
  closed : p.session.cancelled = true → ∀ id ∈ hand ++ p.parks, p.session.isParked id = false
  whole : ∀ t ∈ p.tasks, t.aborted = true → p.session.cancelled = true

/-- Whatever others wait for, the stack is kept, and nothing has come onto it but
what has been parked. -/
structure Piles (hand hand' : List Nat) (p q : Playback) : Prop where
  keeps : ∀ {others}, p.Stacked others hand → q.Stacked others hand'
  onto : p.session.Stacks q.session

/-- A stir that parks nothing and does not end the session. -/
structure Sinks (p q : Playback) : Prop where
  stirs : p.Stirs q
  taps : q.session.taps.Sublist p.session.taps
  cancelled : q.session.cancelled = p.session.cancelled

variable {p q r : Playback} {hand hand' hand'' : List Nat} {task : Task}

theorem Smooth.sinks (h : p.Smooth q) : Sinks p q :=
  ⟨h.stirs, h.level.taps ▸ List.Sublist.refl _, congrArg Pace.cancelled h.level.pace⟩

theorem Sinks.trans (h : Sinks p q) (h' : Sinks q r) : Sinks p r :=
  ⟨h.stirs.trans h'.stirs, h'.taps.trans h.taps, h'.cancelled.trans h.cancelled⟩

theorem Stirs.parks (h : p.Stirs q) : q.parks = p.parks := by
  simp only [Playback.parks, h.pauses, h.tasks]

namespace Piles

theorem refl (hand : List Nat) (p : Playback) : Piles hand hand p p :=
  ⟨id, .of_sublist (Nat.le_refl _) (List.Sublist.refl _)⟩

theorem trans (h : Piles hand hand' p q) (h' : Piles hand' hand'' q r) : Piles hand hand'' p r :=
  ⟨fun hp ↦ h'.keeps (h.keeps hp), h.onto.trans h'.onto⟩

/-- The same is waited for as before. -/
theorem of_perm (htaps : q.session.taps.Sublist p.session.taps)
    (hserial : p.session.serial ≤ q.session.serial)
    (hc : q.session.cancelled = p.session.cancelled)
    (hparks : (hand' ++ q.parks).Perm (hand ++ p.parks))
    (htasks : ∀ t ∈ q.tasks, t.aborted = true → ∃ old ∈ p.tasks, old.aborted = true) :
    Piles hand hand' p q where
  onto := .of_sublist hserial htaps
  keeps := by
    intro others h
    refine ⟨(h.stack.of_sublist hserial htaps).perm ?_, fun hover id hid ↦ ?_, fun t ht ha ↦ ?_⟩
    · refine List.perm_iff_count.mpr fun id ↦ ?_
      have hcount := List.perm_iff_count.mp hparks id
      simp only [List.count_append] at hcount ⊢
      omega
    · refine (Session.Stacks.of_sublist hserial htaps).onward.spent id (h.stack.numbered id ?_)
        (h.closed (hc ▸ hover) id (hparks.mem_iff.mp hid))
      have hin := hparks.mem_iff.mp hid
      simp only [List.mem_append] at hin ⊢
      tauto
    · obtain ⟨old, hold, ha⟩ := htasks t ht ha
      exact hc.trans (h.whole old hold ha)

theorem of_sinks (h : Sinks p q) : Piles hand hand p q :=
  of_perm h.taps h.stirs.serial h.cancelled (by rw [h.stirs.parks]) fun t ht ha ↦
    ⟨t, h.stirs.tasks ▸ ht, ha⟩

theorem of_smooth (h : p.Smooth q) : Piles hand hand p q := of_sinks h.sinks

end Piles

/-! ## Tapping -/

theorem parks_of_heeds {x : Pause} {id : Nat} (h : x.heeds (.tap id) = true) : id ∈ x.parks := by
  obtain ⟨wait, ending, scopes⟩ := x
  cases wait <;> simp_all [Pause.heeds, Wait.heeds, Pause.parks, Pause.park?]

/-- Nobody is woken for an action that nobody waits for. -/
theorem raise_unawaited {id : Nat} (h : id ∉ p.parks) : p.raise (.tap id) = p := by
  have hturn : p.turn.pauses.any (fun q ↦ q.heeds (.tap id)) = false := by
    refine List.any_eq_false.mpr fun x hx hheeds ↦ h ?_
    exact List.mem_append_left _ (List.mem_flatMap.mpr ⟨x, hx, parks_of_heeds hheeds⟩)
  have htasks : p.tasks.filter (fun t ↦ t.heeds (.tap id)) = [] := by
    refine List.filter_eq_nil_iff.mpr fun t ht hheeds ↦ h ?_
    obtain ⟨x, hx, hheeds⟩ := List.any_eq_true.mp hheeds
    exact List.mem_append_right _ (List.mem_flatMap.mpr
      ⟨t, ht, List.mem_flatMap.mpr ⟨x, hx, parks_of_heeds hheeds⟩⟩)
  rw [raise_eq, hturn, htasks, Bool.or_false]
  rfl

theorem raise_unawaited_all {gone : List Parked} (h : ∀ d ∈ gone, d.id ∉ p.parks) :
    gone.foldl (fun p t ↦ p.raise (.tap t.id)) p = p := by
  induction gone with
  | nil => rfl
  | cons d rest ih =>
      rw [List.foldl_cons, raise_unawaited (h d List.mem_cons_self)]
      exact ih fun x hx ↦ h x (List.mem_cons_of_mem _ hx)

/-- A tap resumes the latest live action; nobody is woken for the dead ones above
it.  If all actions are dead, they leave the stack and nothing else happens. -/
theorem Stacked.tap_cases {others hand : List Nat} (h : p.Stacked others hand) :
    (∃ below t dead, p.session.taps = below ++ t :: dead ∧ t.live = true ∧
      (∀ d ∈ dead, d.live = false) ∧ p.tapped = true ∧
      p.tap = (p.update fun s ↦ { s with taps := below }).raise (.tap t.id)) ∨
    ((∀ t ∈ p.session.taps, t.live = false) ∧ p.tapped = false ∧
      p.tap = p.update fun s ↦ { s with taps := [] }) := by
  have hunawaited : ∀ d ∈ p.session.taps, d.live = false → d.id ∉ p.parks := by
    intro d hd hdead hin
    have := (h.stack.live d hd).mpr (List.mem_append_right _ (List.mem_append_right _ hin))
    rw [hdead] at this
    cases this
  unfold tap tapped
  rcases p.session.taps_cases with ⟨below, t, dead, htaps, hlive, hdead, hnext, htake⟩ |
    ⟨hdead, hnext, htake⟩
  · refine .inl ⟨below, t, dead, htaps, hlive, hdead, by rw [hnext]; rfl, ?_⟩
    have hgone : p.session.taps.drop p.session.takeTap.taps.length = t :: dead := by
      rw [htake, htaps, List.drop_left]
    have htaken : p.update .takeTap = p.update fun s ↦ { s with taps := below } := by
      simp only [update, htake]
    dsimp only
    rw [hgone, htaken, List.foldl_cons]
    refine raise_unawaited_all fun d hd ↦ ?_
    have hparks : ((p.update fun s ↦ { s with taps := below }).raise (.tap t.id)).parks = p.parks := by
      rw [raise_eq]
      rfl
    rw [hparks]
    exact hunawaited d (by simp [htaps, hd]) (hdead d hd)
  · refine .inr ⟨hdead, by rw [hnext]; rfl, ?_⟩
    have hgone : p.session.taps.drop p.session.takeTap.taps.length = p.session.taps := by
      rw [htake]
      rfl
    have htaken : p.update .takeTap = p.update fun s ↦ { s with taps := [] } := by
      simp only [update, htake]
    dsimp only
    rw [hgone, htaken]
    exact raise_unawaited_all (p := p.update fun s ↦ { s with taps := [] })
      fun d hd ↦ hunawaited d hd (hdead d hd)

/-! ## Waiting -/

theorem Looked.sinks (h : p.Looked q) : Sinks p q := by
  have harm : ∀ p : Playback, Sinks p p.arm := fun p ↦ (smooth_arm p).sinks
  have hunpark : ∀ (p : Playback) (id : Nat), Sinks p (p.unpark id) := by
    intro p id
    refine ⟨p.stirs_unpark id, ?_, ?_⟩ <;> rw [unpark_eq_touch, touch_session]
    · exact List.filter_sublist
    · rfl
  cases h with
  | still => exact (Smooth.refl p).sinks
  | arms => exact harm p
  | movesOn park => exact hunpark p park
  | dwells park => exact (harm p).trans (hunpark _ park)
  | sways n => exact (p.smooth_sway n _).sinks
  | swaysOn n => exact ((p.smooth_sway n _).sinks).trans (harm _)
  | ticks =>
      refine Sinks.trans ⟨p.stirs_fastForwardTick, ?_, ?_⟩ (harm _) <;>
        simp only [fastForwardTick, tap_eq_touch, skip_eq_touch, resetScopes_eq_touch, touch_session]
      · exact Session.takeTap_sublist p.session.resetScopes.skip
      · rfl

theorem sinks_finish (ending : Ending) : Sinks p (p.finish ending) := by
  cases ending with
  | completed =>
      have hsession : (p.finish .completed).session = p.session := by
        simp only [finish]
        split <;> rfl
      exact ⟨p.stirs_finish _, hsession ▸ List.Sublist.refl _, hsession ▸ rfl⟩
  | _ => exact (p.smooth_finish (by simp)).sinks

theorem piles_leave (pause : Pause) : Piles (pause.parks ++ hand) hand p (p.leave pause) := by
  refine .of_perm (List.Sublist.refl _) (Nat.le_refl _) rfl ?_ fun t ht ha ↦ ⟨t, ht, ha⟩
  refine List.perm_iff_count.mpr fun id ↦ ?_
  simp only [List.count_append, parks_leave]
  omega

/-- A wait that has ended has left the stack. -/
theorem piles_vacate {gone : List Nat} (h : ∀ {others}, p.Stacked others (gone ++ hand) →
    ∀ id ∈ gone, p.session.isParked id = false) : Piles (gone ++ hand) hand p p where
  onto := (Piles.refl hand p).onto
  keeps := by
    intro others hp
    refine ⟨hp.stack.vacate ?_ fun id hid hnot ↦ ?_,
      fun hover id hid ↦ ?_, hp.whole⟩
    · rw [List.append_assoc]
      exact List.sublist_append_right _ _
    · rw [List.append_assoc] at hid
      exact h hp id ((List.mem_append.mp hid).resolve_right hnot)
    · refine hp.closed hover id ?_
      rw [List.append_assoc]
      exact List.mem_append_right _ hid

theorem piles_suspend (wait : Wait) (ending : Ending) (scopes : List Nat) :
    Piles ((⟨wait, ending, scopes⟩ : Pause).parks ++ hand) hand p (p.suspend wait ending scopes) := by
  have hlooked : Piles ((⟨wait, ending, scopes⟩ : Pause).parks ++ hand)
      ((⟨wait, ending, scopes⟩ : Pause).parks ++ hand) p (p.look wait).1 :=
    .of_sinks (p.looked_look wait).sinks
  have hcancelled := (p.looked_look wait).sinks.cancelled
  unfold suspend
  split
  next q w hlook =>
    rw [hlook] at hlooked
    have hpark : (⟨w, ending, scopes⟩ : Pause).parks = (⟨wait, ending, scopes⟩ : Pause).parks :=
      congrArg Option.toList (pause_becomes ending scopes hlook).park
    exact hlooked.trans (hpark ▸ piles_leave _)
  next q ran hlook =>
    rw [hlook] at hlooked hcancelled
    have hvacated : Piles ((⟨wait, ending, scopes⟩ : Pause).parks ++ hand) hand q q := by
      refine piles_vacate fun {others} hq id hid ↦ ?_
      by_cases hover : q.session.cancelled = true
      · exact hq.closed hover id (by simp [hid])
      · exact look_ends_park (by rw [← hcancelled]; simpa using hover) hlook id hid
    refine (hlooked.trans hvacated).trans ?_
    split
    · exact .of_sinks (sinks_finish ending)
    · exact .refl hand q
  next q hlook =>
    rw [hlook] at hlooked
    exact hlooked.trans ((piles_leave ⟨wait, ending, scopes⟩).trans
      (.of_perm (List.Sublist.refl _) (Nat.le_refl _) rfl (.refl _) fun t ht ha ↦ ⟨t, ht, ha⟩))

/-- A wait for something else than a parked action. -/
theorem piles_wait {wait : Wait} {ending : Ending} {scopes : List Nat}
    (h : (⟨wait, ending, scopes⟩ : Pause).park? = none) :
    Piles hand hand p (p.suspend wait ending scopes) := by
  have hsuspend : Piles _ hand p _ := piles_suspend wait ending scopes
  rwa [Pause.parks, h, Option.toList_none, List.nil_append] at hsuspend

theorem piles_sleep (d : Duration) (ending : Ending) (scopes : List Nat) :
    Piles hand hand p (p.sleep d ending scopes) :=
  (Piles.of_smooth p.smooth_arm).trans (piles_wait rfl)

/-- While the session goes on, actions are parked by performing them. -/
theorem piles_park (hc : p.session.cancelled = false) (kind : Dwell) (ending : Ending)
    (scopes : List Nat) : Piles hand hand p (p.park kind ending scopes) := by
  have hparked : Piles hand (p.session.serial :: hand) p (p.update fun s ↦ s.park.2) := by
    refine ⟨fun h ↦ ⟨h.stack.park, fun hover ↦ ?_, h.whole⟩, Session.stacks_park⟩
    exact absurd hover (by simp [update, Session.park, hc])
  exact hparked.trans (piles_suspend (.tap p.session.serial kind .off) ending scopes)

/-! ## Performing -/

theorem piles_addTask (owned asks : Bool) (scope : Option Nat) (agenda : List Errand) :
    Piles hand hand p (p.addTask owned asks scope agenda) := by
  refine .of_perm (List.Sublist.refl _) (Nat.le_refl _) rfl ?_ fun t ht ha ↦ ?_
  · have hparks : (p.addTask owned asks scope agenda).parks = p.parks := by
      simp [parks, addTask, Task.parks]
    rw [hparks]
  · rcases List.mem_append.mp ht with ht | ht
    · exact ⟨t, ht, ha⟩
    · rw [List.mem_singleton.mp ht] at ha
      cases ha

theorem piles_spawn (scope : Option Nat) (agenda : List Errand) :
    Piles hand hand p (p.spawn scope agenda) := by
  unfold spawn
  split
  · exact .refl hand p
  · exact piles_addTask _ _ _ _

theorem piles_note (action : Action) (scope : Nat) (step : Option Nat) :
    Piles hand hand p (p.note action scope step) := by
  unfold note
  split
  · exact .refl hand p
  · exact .of_perm (List.Sublist.refl _) (Nat.le_refl _) rfl (.refl _) fun t ht ha ↦ ⟨t, ht, ha⟩

theorem piles_performCue (cue : Cue) (scope : Nat) (scopes : List Nat) (step : Option Nat) :
    Piles hand hand p (p.performCue cue scope scopes step) := by
  unfold performCue
  split
  · exact .refl hand p
  next hover =>
    have hc : p.session.cancelled = false := by
      cases hc : p.session.cancelled <;> simp_all [isOver]
    have hentered := (p.smooth_announce step).trans (smooth_enter _ scope cue.isTapBlocking)
    have hgoes : ∀ {q : Playback}, p.Smooth q → q.session.cancelled = false := fun h ↦
      h.sinks.cancelled.trans hc
    cases cue with
    | talk line =>
        have htold := hentered.trans ((smooth_tell _ line).trans (smooth_speak _ line))
        exact (Piles.of_smooth htold).trans (piles_park (hgoes htold) _ _ _)
    | telop text =>
        have hshown := hentered.trans (smooth_present _ (Stage.setTelop text))
        exact (Piles.of_smooth hshown).trans (piles_park (hgoes hshown) _ _ _)
    | model change =>
        exact (Piles.of_smooth (hentered.trans (smooth_presentIf _ _))).trans (piles_spawn _ _)
    | tremble axis character => exact .of_smooth (hentered.trans (smooth_release _ _))
    | cover cover visible seconds =>
        exact (Piles.of_smooth (hentered.trans (smooth_number _ _))).trans (piles_sleep _ _ _)
    | shake shake seconds =>
        exact (Piles.of_smooth (hentered.trans (smooth_number _ _))).trans
          ((piles_spawn _ _).trans (piles_sleep _ _ _))
    | scenery scenery path =>
        exact .of_smooth (hentered.trans (smooth_changeScenery _ scenery path _))
    | delay seconds => exact (Piles.of_smooth hentered).trans (piles_sleep _ _ _)
    | waitForAll | waitForTap =>
        exact (Piles.of_smooth (hentered.trans (smooth_release _ _))).trans (piles_wait rfl)

theorem piles_open (action : Action) (scope : Nat) (step : Option Nat) :
    Piles hand hand p ((p.note action scope step).openWithin scope step) :=
  (piles_note action scope step).trans (.of_smooth (smooth_openWithin _ scope step))

theorem piles_begin {errand : Errand} (h : ∀ action scope step, errand ≠ .perform action scope step) :
    Piles hand hand p (p.begin errand) := by
  cases errand with
  | perform action scope step => exact absurd rfl (h action scope step)
  | sleep d ending scopes => exact piles_sleep d ending scopes
  | animate => exact (Piles.of_smooth p.smooth_arm).trans (piles_wait rfl)
  | _ => exact piles_wait rfl

/-- A look takes a pause in hand and puts it back, if it goes on. -/
theorem piles_revisit {pause : Pause} {others : List Pause} (h : p.Awaits (pause :: others)) :
    Piles [] [] p (p.revisit pause) := by
  by_cases hf : p.turn.failed = true
  · rw [revisit_failed hf]
    exact .refl [] p
  obtain ⟨done, hpauses⟩ := h.resolve_left hf
  rw [revisit_eq (by simpa using hf)]
  have haside : Piles [] (pause.parks ++ []) p p.aside := by
    refine .of_perm (List.Sublist.refl _) (Nat.le_refl _) rfl ?_ fun t ht ha ↦ ⟨t, ht, ha⟩
    refine List.perm_iff_count.mpr fun id ↦ ?_
    simp only [parks, aside, updateTurn, hpauses, List.cons_append, List.tail_cons,
      List.flatMap_cons, List.count_append, List.nil_append, List.append_nil]
    omega
  exact haside.trans (piles_suspend _ _ _)

/-! ## The beginning and the end of a turn -/

theorem piles_begun (hnodup : (p.tasks.map Task.id).Nodup) (htask : task ∈ p.tasks)
    (hidle : p.turn = .none) : Piles [] [] p (p.begun task) := by
  refine .of_perm (List.Sublist.refl _) (Nat.le_refl _) rfl ?_ fun t ht ha ↦ ?_
  · refine List.perm_iff_count.mpr fun id ↦ ?_
    have hcount := count_modifyTask (p := p) (g := fun t ↦ { t with agenda := [], pauses := [] })
      Task.parks id hnodup htask
    have hnone : (Task.parks { task with agenda := [], pauses := [] }).count id = 0 := rfl
    rw [hnone] at hcount
    simp only [parks, begun, updateTurn, Turn.ofTask, hidle, Turn.none, List.flatMap_nil,
      List.nil_append, List.count_append]
    change (Task.parks task).count id + _ = _
    omega
  · rcases mem_modifyTask ht with ⟨old, hold, -, rfl⟩ | ⟨hold, -⟩
    · exact ⟨old, hold, ha⟩
    · exact ⟨t, hold, ha⟩

theorem parks_endTask (outcome : Outcome) (hempty : ∀ t ∈ p.tasks, t.id = task.id → t.pauses = []) :
    (p.endTask task outcome).tasks.flatMap Task.parks = p.tasks.flatMap Task.parks :=
  flatMap_endTask Task.parks fun t ht he ↦ by simp [Task.parks, hempty t ht he]

theorem flatMap_parks (pauses : List Pause) :
    pauses.flatMap Pause.parks = pauses.filterMap Pause.park? := by
  induction pauses with
  | nil => rfl
  | cons pause rest ih =>
      rw [List.flatMap_cons, List.filterMap_cons, ih]
      cases hpark : pause.park? <;> simp [Pause.parks, hpark]

/-- What a failed task waited for is dead. -/
theorem Stacked.abandonAll {others : List Nat} (pauses : List Pause)
    (h : p.Stacked others (pauses.flatMap Pause.parks)) : (p.abandonAll pauses).Stacked others [] := by
  unfold Playback.abandonAll
  rw [flatMap_parks] at h
  generalize pauses.filterMap Pause.park? = ids at h ⊢
  induction ids generalizing p with
  | nil => exact h
  | cons id rest ih =>
      refine ih ⟨?_, fun hover other hother ↦ ?_, h.whole⟩
      · exact Session.Stacked.abandon h.stack
      · have hgone := h.closed hover other (List.mem_cons_of_mem _ hother)
        have hids : (p.update (.abandon id)).session.taps.map Parked.id = p.session.taps.map Parked.id :=
          p.session.abandon_ids id
        rwa [Session.isParked_eq_false, hids, ← Session.isParked_eq_false]

theorem onward_abandonAll (pauses : List Pause) : p.session.Onward (p.abandonAll pauses).session := by
  unfold Playback.abandonAll
  generalize pauses.filterMap Pause.park? = ids
  induction ids generalizing p with
  | nil => exact .of_ids (Nat.le_refl _) rfl
  | cons id rest ih =>
      have hfirst : p.session.Onward (p.session.abandon id) :=
        .of_ids (Nat.le_refl _) (p.session.abandon_ids id)
      exact hfirst.trans (ih (p := p.update (.abandon id)))

/-- A turn that has not failed ends without a change of the stack. -/
theorem piles_endTurn (ho : p.Orderly p.session.moment (some task.id) 0)
    (hgoes : p.turn.failed = false) : Piles [] [] p (p.endTurn task) := by
  have hempty : ∀ t ∈ p.tasks, t.id = task.id → t.pauses = [] :=
    fun t ht he ↦ (ho.empty t ht (by rw [he])).1
  unfold endTurn
  dsimp only
  rw [if_neg (by simp [hgoes])]
  split
  next hnil =>
    have hnil : p.turn.pauses = [] := by simpa using hnil
    refine .of_perm (List.Sublist.refl _) (Nat.le_refl _) rfl ?_ fun t ht ha ↦ ?_
    · have hparks := parks_endTask (p := p.updateTurn fun _ ↦ .none)
        ((p.updateTurn fun _ ↦ .none).outcomeOf task.asks) hempty
      have hnone : ((p.updateTurn fun _ ↦ .none).endTask task
          ((p.updateTurn fun _ ↦ .none).outcomeOf task.asks)).turn.pauses = [] := rfl
      rw [parks, hparks, hnone, parks, hnil]
      exact .refl _
    · exact ⟨t, (List.mem_filter.mp ht).1, ha⟩
  next =>
    obtain ⟨entry, hentry, hid⟩ := List.mem_map.mp (ho.running_mem task.id rfl)
    have hback : Piles [] [] p ((p.updateTurn fun _ ↦ .none).modifyTask task.id
        (fun t ↦ { t with agenda := p.turn.agenda, pauses := p.turn.pauses })) := by
      refine .of_perm (List.Sublist.refl _) (Nat.le_refl _) rfl ?_ fun t ht ha ↦ ?_
      · refine List.perm_iff_count.mpr fun id ↦ ?_
        have hcount := count_modifyTask (p := p.updateTurn fun _ ↦ .none)
          (g := fun t ↦ { t with agenda := p.turn.agenda, pauses := p.turn.pauses })
          Task.parks id ho.nodup_ids hentry
        rw [hid] at hcount
        simp only [parks, updateTurn, Turn.none, Task.parks, hempty entry hentry hid, modifyTask,
          List.flatMap_nil, List.nil_append, List.count_append, List.count_nil] at hcount ⊢
        omega
      · rcases mem_modifyTask ht with ⟨old, hold, -, rfl⟩ | ⟨hold, -⟩
        · exact ⟨old, hold, ha⟩
        · exact ⟨t, hold, ha⟩
    split
    · refine hback.trans ?_
      unfold wake
      split
      · exact .refl [] _
      · exact .of_perm (List.Sublist.refl _) (Nat.le_refl _) rfl (.refl _) fun t ht ha ↦ ⟨t, ht, ha⟩
    · exact hback

theorem onward_endTurn (ho : p.Orderly p.session.moment (some task.id) 0) :
    p.session.Onward (p.endTurn task).session := by
  cases hf : p.turn.failed with
  | false => exact (piles_endTurn ho hf).onto.onward
  | true =>
      unfold Playback.endTurn
      dsimp only
      rw [if_pos hf]
      exact onward_abandonAll (p := (p.updateTurn fun _ ↦ .none).endTask task .failed) p.turn.pauses

theorem Stacked.endTurn {others : List Nat} (h : p.Stacked others [])
    (ho : p.Orderly p.session.moment (some task.id) 0) : (p.endTurn task).Stacked others [] := by
  cases hf : p.turn.failed with
  | false => exact (piles_endTurn ho hf).keeps h
  | true =>
      have hempty : ∀ t ∈ p.tasks, t.id = task.id → t.pauses = [] :=
        fun t ht he ↦ (ho.empty t ht (by rw [he])).1
      have hparks := parks_endTask (p := p.updateTurn fun _ ↦ .none) .failed hempty
      have hended : Piles [] (p.turn.pauses.flatMap Pause.parks) p
          ((p.updateTurn fun _ ↦ .none).endTask task .failed) := by
        refine .of_perm (List.Sublist.refl _) (Nat.le_refl _) rfl ?_ fun t ht ha ↦
          ⟨t, (List.mem_filter.mp ht).1, ha⟩
        have hnone : ((p.updateTurn fun _ ↦ .none).endTask task .failed).turn.pauses = [] := rfl
        rw [parks, hparks, hnone]
        exact .refl _
      unfold Playback.endTurn
      dsimp only
      rw [if_pos hf]
      exact (hended.keeps h).abandonAll p.turn.pauses

end Playback

namespace Machine

open Playback

variable {m n : Machine} {p : Playback} {others : List Nat}

/-- Within a turn nothing on the stack becomes dead. -/
theorem Beat.piles (hs : Sound m) (hc : Cast m) (hb : Beat m n) (hn : n.running ≠ none) :
    Piles [] [] m.playback n.playback := by
  have hset : ∀ (p : Playback) (rest : List Errand),
      Piles [] [] p (p.updateTurn (fun t ↦ { t with agenda := rest })) := fun p rest ↦
    .of_perm (List.Sublist.refl _) (Nat.le_refl _) rfl (.refl _) fun t ht ha ↦ ⟨t, ht, ha⟩
  cases hb with
  | @take p id rest task hq htask =>
      have hqueue : Piles [] [] p { p with queue := rest } :=
        .of_perm (List.Sublist.refl _) (Nat.le_refl _) rfl (.refl _) fun t ht ha ↦ ⟨t, ht, ha⟩
      exact hqueue.trans (piles_begun hs.orderly.nodup_ids (Orderly.task?_eq htask).1
        (hs.orderly.idle rfl))
  | drop => exact absurd rfl hn
  | @look p task pause jobs =>
      have hawaits : p.Awaits (pause :: looks jobs) := (hc.running (by simp)).awaits
      exact piles_revisit hawaits
  | walk => exact hset _ _
  | begin _ _ hother => exact (hset _ _).trans (piles_begin hother)
  | skip => exact .refl [] _
  | cue => exact (piles_note _ _ _).trans (piles_performCue _ _ _ _)
  | block => exact piles_open _ _ _
  | fork => exact (piles_open _ _ _).trans (piles_spawn _ _)
  | @close p task scope scopes => exact piles_performCue (p := p) .waitForAll scope scopes none
  | finish => exact absurd rfl hn

/-- A task that is aborted leaves when the session has ended. -/
theorem piles_drop {id : Nat} {rest : List Nat} (hgone : ∀ task, p.task? id = some task → task.aborted = true) :
    Piles [] [] p (runTask id { p with queue := rest }) := by
  unfold runTask
  split
  · exact .of_perm (List.Sublist.refl _) (Nat.le_refl _) rfl (.refl _) fun t ht ha ↦ ⟨t, ht, ha⟩
  next task hsome =>
    have haborted := hgone task hsome
    have hmem := (Orderly.task?_eq hsome).1
    rw [if_pos haborted]
    refine ⟨fun {others} h ↦ ?_, .of_sublist (Nat.le_refl _) (List.Sublist.refl _)⟩
    have hover := h.whole task hmem haborted
    have hsub : (({ p with queue := rest } : Playback).removeTask id).parks.Sublist p.parks :=
      List.Sublist.append (List.Sublist.refl _) (List.filter_sublist.flatMap _)
    refine ⟨h.stack.vacate ((List.Sublist.refl _).append ((List.Sublist.refl _).append hsub)) fun other hin hnot ↦ ?_, fun _ other hother ↦ ?_,
      fun t ht ha ↦ h.whole t (List.mem_filter.mp ht).1 ha⟩
    · refine h.closed hover other ?_
      simp only [List.nil_append, List.mem_append] at hin hnot ⊢
      tauto
    · exact h.closed hover other (hsub.subset hother)

theorem Beat.stacked (hs : Sound m) (hc : Cast m) (h : m.playback.Stacked others [])
    (hb : Beat m n) : n.playback.Stacked others [] := by
  have hb' := hb
  cases hb with
  | drop hq hgone => exact (piles_drop hgone).keeps h
  | finish => exact h.endTurn hs.orderly
  | _ => exact (hb'.piles hs hc (by simp)).keeps h

theorem Beat.onward (hs : Sound m) (hc : Cast m) (hb : Beat m n) :
    m.playback.session.Onward n.playback.session := by
  have hb' := hb
  cases hb with
  | drop hq hgone => exact (piles_drop hgone).onto.onward
  | finish => exact onward_endTurn hs.orderly
  | _ => exact (hb'.piles hs hc (by simp)).onto.onward

theorem piles_moveTo (time : Nat) : Piles [] [] p (p.moveTo time) := by
  obtain ⟨queue, hmoved⟩ := moveTo_eq time p
  rw [hmoved]
  exact .of_perm (List.Sublist.refl _) (Nat.le_refl _) rfl (.refl _) fun t ht ha ↦ ⟨t, ht, ha⟩

theorem piles_rest (time : Nat) : Piles [] [] p (p.update fun s ↦ { s with now := time }) :=
  .of_perm (List.Sublist.refl _) (Nat.le_refl _) rfl (.refl _) fun t ht ha ↦ ⟨t, ht, ha⟩

/-- Whether time passes or tasks have turns, the stack is kept. -/
theorem Runs.stacked (hr : Runs (fun _ _ ↦ False) m n) (hs : Sound m) (hc : Cast m)
    (h : m.playback.Stacked others []) : (Cast n ∧ n.playback.Stacked others []) ∧ Sound n := by
  refine hr.induct (I := fun k ↦ Cast k ∧ k.playback.Stacked others []) (fun _ _ hf ↦ hf.elim) hs
    ⟨hc, h⟩ ?_
  rintro k l hk ⟨hcast, hstacked⟩ hstep
  refine ⟨hstep.cast (fun _ _ hf ↦ hf.elim) hk hcast, ?_⟩
  cases hstep with
  | beat hb => exact hb.stacked hk hcast hstacked
  | act hf => exact hf.elim
  | move => exact (piles_moveTo _).keeps hstacked
  | rest => exact (piles_rest _).keeps hstacked

theorem Runs.onward (hr : Runs (fun _ _ ↦ False) m n) (hs : Sound m) (hc : Cast m) :
    m.playback.session.Onward n.playback.session := by
  refine (hr.induct (I := fun k ↦ Cast k ∧ m.playback.session.Onward k.playback.session)
    (fun _ _ hf ↦ hf.elim) hs ⟨hc, .of_ids (Nat.le_refl _) rfl⟩ ?_).1.2
  rintro k l hk ⟨hcast, honward⟩ hstep
  refine ⟨hstep.cast (fun _ _ hf ↦ hf.elim) hk hcast, honward.trans ?_⟩
  cases hstep with
  | beat hb => exact hb.onward hk hcast
  | act hf => exact hf.elim
  | move => exact (piles_moveTo _).onto.onward
  | rest => exact (piles_rest _).onto.onward

end Machine

end Storyline
