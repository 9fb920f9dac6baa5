import Storyline.Proofs.Playback.Performing

/-!
# Prospects

While a story plays by itself, what has been taken up so far and what is ahead
of its tasks make up the timetable of the story, and the main task will be over
when the timetable says so.  A task may be replaced by others if they have the
same ahead of them.
-/

namespace Storyline

open Timetable

/-- Whether a wait ticks beside the timeline. -/
def Wait.Ticks : Wait → Prop
  | .frame .. | .forward _ => True
  | _ => False

structure Task.Regular (voices : VoiceCache) (s : Session) (t : Task) : Prop where
  tame : ∀ q ∈ t.pauses, q.wait.Tame
  beside : ∀ q ∈ t.pauses, q.wait.Ticks → t.scope = none
  waiting : ∀ q ∈ t.pauses, ∀ id ∈ q.parks, s.isParked id = true
  agenda : ∀ e ∈ t.agenda, e.Tame voices ∧ e.BelongsTo t.scope

def Errand.isPerform : Errand → Bool
  | perform .. => true
  | _ => false

/-- The errand that completes the story. -/
def closing (root : Nat) : Errand := .drain root .actions true .completed

/-- A task that does not complete the story. -/
structure Task.Follows (t : Task) : Prop where
  agenda : ∀ e ∈ t.agenda, e.isDrain = false
  pauses : ∀ q ∈ t.pauses, q.ending ≠ .completed

/-- The task that completes the story, once its scope is clear. -/
inductive Task.Leads (root : Nat) (t : Task) : Prop
  | walking (steps : List Errand) (hscope : t.scope = some root)
    (hagenda : t.agenda = steps ++ [closing root]) (hsteps : ∀ e ∈ steps, e.isPerform = true)
    (hpauses : ∀ q ∈ t.pauses, q.ending ≠ .completed)
  | closing (scopes : List Nat) (hscope : t.scope = some root) (hagenda : t.agenda = [])
    (hpauses : t.pauses = [⟨.drained root .actions true, .completed, scopes⟩])

def Task.prospect (c : Config) (X : Clearing) (now : Nat) (t : Task) : List (Nat × Action) × Option Nat :=
  Storyline.prospect c X now t.home t.pauses t.agenda

/-- When the scopes will be clear, by what some tasks owe. -/
def outlook (now : Nat) (tasks : List Task) : Clearing := clears now (tasks.flatMap (Task.debts now))

section tasks

variable {c : Config} {voices : VoiceCache} {s s' : Session} {X Y : Clearing} {now root : Nat}
  {t : Task} {tasks tasks' : List Task}

theorem Task.Follows.not_leads (h : t.Follows) : ¬t.Leads root := by
  rintro (⟨steps, -, hagenda, -, -⟩ | ⟨scopes, -, -, hpauses⟩)
  · exact absurd (h.agenda (closing root) (by simp [hagenda])) (by simp [closing, Errand.isDrain])
  · exact h.pauses _ (by rw [hpauses]; exact List.mem_singleton.mpr rfl) rfl

theorem Task.Leads.scope (h : t.Leads root) : t.scope = some root := by
  cases h <;> assumption

/-- A task without a scope takes up nothing. -/
theorem Task.Regular.idle (h : t.Regular voices s) (hscope : t.scope = none) :
    actionsOf t.agenda = [] := by
  refine List.filterMap_eq_nil_iff.mpr fun e he ↦ ?_
  have hat := (h.agenda e he).2
  rw [hscope] at hat
  cases e <;> first | rfl | cases hat

theorem Task.Regular.events_idle (h : t.Regular voices s) (hscope : t.scope = none) :
    (t.prospect c X now).1 = [] := prospect_idle (h.idle hscope)

/-- What is ahead of a task depends on the scopes only that it minds. -/
theorem Task.prospect_congr (hscope : t.scope ≠ none) (hX : ∀ x ∈ t.minds, X x = Y x) :
    t.prospect c X now = t.prospect c Y now := by
  refine Storyline.prospect_congr (hX _ ?_) fun x hx ↦ hX x (List.mem_append_right _ hx)
  obtain ⟨x, hx⟩ := Option.ne_none_iff_exists'.mp hscope
  simp [Task.minds, Task.home, hx]

theorem Task.Regular.events_congr (h : t.Regular voices s) (hX : ∀ x ∈ t.minds, X x = Y x) :
    (t.prospect c X now).1 = (t.prospect c Y now).1 := by
  by_cases hscope : t.scope = none
  · rw [h.events_idle hscope, h.events_idle hscope]
  · rw [Task.prospect_congr hscope hX]

theorem come_outlook {n x : Nat} {tally : Tally} : Come n (outlook now tasks x tally) ↔
    now ≤ n ∧ ∀ d ∈ tasks.flatMap (Task.debts now), d.1.scope = x → tally.regards d.1 = true →
      Come n d.2 := come_clears

theorem outlook_perm (h : tasks.Perm tasks') : outlook now tasks = outlook now tasks' := by
  funext x tally
  refine ext_come fun n ↦ ?_
  simp only [come_outlook, (h.flatMap_right _).mem_iff]

end tasks

/-- What has been taken up and what is ahead make up a plan. -/
structure Prospects (c : Config) (voices : VoiceCache) (plan : List (Nat × Action))
    (finish : Option Nat) (root : Nat) (s : Session) (status : Status) (ds : List Dispatch)
    (tasks : List Task) : Prop where
  config : s.config = c
  pace : s.pace = ⟨true, false, 0, false, voices⟩
  regular : ∀ t ∈ tasks, t.Regular voices s
  apart : tasks.Pairwise (fun t u ↦ ∀ x ∈ t.minds, x ∉ u.minds)
  minds_lt : ∀ t ∈ tasks, ∀ x ∈ t.minds, x < s.serial
  past : ∀ d ∈ ds, d.time ≤ s.now
  ordered : ds.Pairwise (fun d e ↦ d.time ≤ e.time)
  events : (ds.map (fun d ↦ (d.time, d.action)) ++
    tasks.flatMap (fun t ↦ (t.prospect c (outlook s.now tasks) s.now).1)).Perm plan
  roles : ∀ t ∈ tasks, t.Follows ∨ t.Leads root
  ends : ∀ t ∈ tasks, t.Leads root → (t.prospect c (outlook s.now tasks) s.now).2 = finish
  status : (status = .playing ∧ ∃ t ∈ tasks, t.Leads root) ∨
    (status = .completed ∧ Come s.now finish)

namespace Prospects

variable {c : Config} {voices : VoiceCache} {plan : List (Nat × Action)} {finish : Option Nat}
  {root : Nat} {s s' : Session} {status status' : Status} {ds ds' : List Dispatch}
  {tasks tasks' news rest : List Task} {cur : Task}

theorem perm (h : Prospects c voices plan finish root s status ds tasks)
    (hp : tasks.Perm tasks') : Prospects c voices plan finish root s status ds tasks' where
  config := h.config
  pace := h.pace
  regular := fun t ht ↦ h.regular t (hp.mem_iff.mpr ht)
  apart := (hp.pairwise_iff fun hxy x hx hx' ↦ hxy x hx' hx).mp h.apart
  minds_lt := fun t ht ↦ h.minds_lt t (hp.mem_iff.mpr ht)
  past := h.past
  ordered := h.ordered
  events := by
    rw [← outlook_perm hp]
    exact ((hp.flatMap_right _).symm.append_left _).trans h.events
  roles := fun t ht ↦ h.roles t (hp.mem_iff.mpr ht)
  ends := by
    rw [← outlook_perm hp]
    exact fun t ht ↦ h.ends t (hp.mem_iff.mpr ht)
  status := h.status.imp_left fun ⟨hs, t, ht, hleads⟩ ↦ ⟨hs, t, hp.mem_iff.mp ht, hleads⟩

/-- A task is replaced by others with the same ahead of them. -/
theorem replace (h : Prospects c voices plan finish root s status ds (cur :: rest))
    (hmoment : s'.moment = s.moment) (hpace : s'.pace = s.pace) (hserial : s.serial ≤ s'.serial)
    (hparked : ∀ t ∈ rest, ∀ q ∈ t.pauses, ∀ id ∈ q.parks, s'.isParked id = true)
    (hregular : ∀ t ∈ news, t.Regular voices s')
    (hapart : news.Pairwise (fun t u ↦ ∀ x ∈ t.minds, x ∉ u.minds))
    (hminds : ∀ t ∈ news, ∀ x ∈ t.minds, (x ∈ cur.minds ∨ s.serial ≤ x) ∧ x < s'.serial)
    (houtlook : ∀ x, x ∉ cur.minds → x < s.serial →
      outlook s.now (news ++ rest) x = outlook s.now (cur :: rest) x)
    (htimes : ∀ d ∈ ds', d.time = s.now)
    (hevents : (ds'.map (fun d ↦ (d.time, d.action)) ++
      news.flatMap (fun t ↦ (t.prospect c (outlook s.now (news ++ rest)) s.now).1)).Perm
        (cur.prospect c (outlook s.now (cur :: rest)) s.now).1)
    (hroles : ∀ t ∈ news, t.Follows ∨ t.Leads root)
    (hfinish : ∀ t ∈ news, t.Leads root →
      (t.prospect c (outlook s.now (news ++ rest)) s.now).2 = finish)
    (hstatus : (status' = .playing ∧ ∃ t ∈ news ++ rest, t.Leads root) ∨
      (status' = .completed ∧ Come s.now finish)) :
    Prospects c voices plan finish root s' status' (ds ++ ds') (news ++ rest) := by
  have hnow : s'.now = s.now := congrArg Moment.now hmoment
  obtain ⟨hcur, hrest⟩ := List.pairwise_cons.mp h.apart
  -- the others do not mind what the task does
  have hsame : ∀ t ∈ rest, ∀ x ∈ t.minds,
      outlook s.now (news ++ rest) x = outlook s.now (cur :: rest) x := by
    intro t ht x hx
    exact houtlook x (fun hx' ↦ hcur t ht x hx' hx)
      (h.minds_lt t (List.mem_cons_of_mem _ ht) x hx)
  have hregular' : ∀ t ∈ rest, t.Regular voices s := fun t ht ↦
    h.regular t (List.mem_cons_of_mem _ ht)
  constructor
  case config => exact (congrArg Moment.config hmoment).trans h.config
  case pace => exact hpace.trans h.pace
  case regular =>
    intro t ht
    rcases List.mem_append.mp ht with ht | ht
    · exact hregular t ht
    · exact { hregular' t ht with waiting := hparked t ht }
  case apart =>
    refine List.pairwise_append.mpr ⟨hapart, hrest, fun t ht u hu x hx hxu ↦ ?_⟩
    rcases (hminds t ht x hx).1 with hx | hx
    · exact hcur u hu x hx hxu
    · have := h.minds_lt u (List.mem_cons_of_mem _ hu) x hxu
      omega
  case minds_lt =>
    intro t ht x hx
    rcases List.mem_append.mp ht with ht | ht
    · exact (hminds t ht x hx).2
    · exact Nat.lt_of_lt_of_le (h.minds_lt t (List.mem_cons_of_mem _ ht) x hx) hserial
  case past =>
    rw [hnow]
    intro d hd
    exact (List.mem_append.mp hd).elim (h.past d) fun hd ↦ Nat.le_of_eq (htimes d hd)
  case ordered =>
    refine List.pairwise_append.mpr ⟨h.ordered, List.pairwise_iff_forall_sublist.mpr fun {d e} hsub ↦ ?_, fun d hd e he ↦ ?_⟩
    · exact Nat.le_of_eq ((htimes d (hsub.subset (by simp))).trans
        (htimes e (hsub.subset (by simp))).symm)
    · rw [htimes e he]
      exact h.past d hd
  case events =>
    rw [hnow]
    have hothers : rest.flatMap (fun t ↦ (t.prospect c (outlook s.now (news ++ rest)) s.now).1) =
        rest.flatMap (fun t ↦ (t.prospect c (outlook s.now (cur :: rest)) s.now).1) := by
      rw [List.flatMap_def, List.flatMap_def]
      exact congrArg List.flatten
        (List.map_congr_left fun t ht ↦ (hregular' t ht).events_congr (hsame t ht))
    have hplan := h.events
    rw [List.flatMap_cons] at hplan
    rw [List.map_append, List.flatMap_append, hothers, List.append_assoc,
      ← List.append_assoc (ds'.map _)]
    exact ((hevents.append_right _).append_left _).trans hplan
  case roles =>
    intro t ht
    rcases List.mem_append.mp ht with ht | ht
    · exact hroles t ht
    · exact h.roles t (List.mem_cons_of_mem _ ht)
  case ends =>
    rw [hnow]
    intro t ht hleads
    rcases List.mem_append.mp ht with ht | ht
    · exact hfinish t ht hleads
    · rw [← h.ends t (List.mem_cons_of_mem _ ht) hleads]
      exact congrArg Prod.snd (Task.prospect_congr (by simp [hleads.scope]) (hsame t ht))
  case status =>
    rw [hnow]
    exact hstatus

/-- A task goes on without taking anything up. -/
theorem revise {cur' : Task} (h : Prospects c voices plan finish root s status ds (cur :: rest))
    (hmoment : s'.moment = s.moment) (hpace : s'.pace = s.pace) (hserial : s.serial ≤ s'.serial)
    (hparked : ∀ t ∈ rest, ∀ q ∈ t.pauses, ∀ id ∈ q.parks, s'.isParked id = true)
    (hscope : cur'.scope = cur.scope) (hregular : cur'.Regular voices s')
    (hminds : ∀ x ∈ cur'.minds, x ∈ cur.minds)
    (hdebts : ∀ n, s.now ≤ n → ∀ x (tally : Tally),
      (∀ d ∈ cur'.debts s.now, d.1.scope = x → tally.regards d.1 = true → Come n d.2) ↔
        ∀ d ∈ cur.debts s.now, d.1.scope = x → tally.regards d.1 = true → Come n d.2)
    (hprospect : cur.scope ≠ none →
      cur'.prospect c (outlook s.now (cur :: rest)) s.now =
        cur.prospect c (outlook s.now (cur :: rest)) s.now)
    (hfollows : cur.Follows → cur'.Follows ∧ status' = status)
    (hleads : cur.Leads root → (cur'.Leads root ∧ status' = status) ∨
      (cur'.Follows ∧ (status = .playing → status' = .completed ∧
        Come s.now (cur.prospect c (outlook s.now (cur :: rest)) s.now).2) ∧
        (status ≠ .playing → status' = status))) :
    Prospects c voices plan finish root s' status' ds (cur' :: rest) := by
  have houtlook : outlook s.now (cur' :: rest) = outlook s.now (cur :: rest) := by
    funext x tally
    refine ext_come fun n ↦ ?_
    simp only [come_outlook, List.flatMap_cons, List.forall_mem_append]
    exact and_congr_right fun hn ↦ and_congr_left fun _ ↦ hdebts n hn x tally
  have hcur := h.regular cur List.mem_cons_self
  have hevents : (cur'.prospect c (outlook s.now (cur :: rest)) s.now).1 =
      (cur.prospect c (outlook s.now (cur :: rest)) s.now).1 := by
    by_cases hnone : cur.scope = none
    · rw [hcur.events_idle hnone, hregular.events_idle (hscope.trans hnone)]
    · rw [hprospect hnone]
  have hone : ∀ t ∈ [cur'], t = cur' := fun t ↦ List.mem_singleton.mp
  have hplan : Prospects c voices plan finish root s' status' (ds ++ []) ([cur'] ++ rest) :=
    h.replace hmoment hpace hserial hparked ?_ (List.pairwise_singleton _ _) ?_ (fun x _ _ ↦ congrFun houtlook x) (by simp) ?_ ?_ ?_ ?_
  · rwa [List.append_nil] at hplan
  · exact fun t ht ↦ hone t ht ▸ hregular
  · intro t ht x hx
    rw [hone t ht] at hx
    have hmem := hminds x hx
    exact ⟨.inl hmem, Nat.lt_of_lt_of_le (h.minds_lt cur List.mem_cons_self x hmem) hserial⟩
  · rw [List.singleton_append, houtlook]
    simp [hevents]
  · intro t ht
    rw [hone t ht]
    rcases h.roles cur List.mem_cons_self with hf | hl
    · exact .inl (hfollows hf).1
    · exact (hleads hl).elim (fun hl' ↦ .inr hl'.1) fun hf ↦ .inl hf.1
  · intro t ht hl'
    rw [hone t ht] at hl' ⊢
    rcases h.roles cur List.mem_cons_self with hf | hl
    · exact absurd hl' (hfollows hf).1.not_leads
    · rw [List.singleton_append, houtlook, hprospect (by simp [hl.scope])]
      exact h.ends cur List.mem_cons_self hl
  · rcases h.status with ⟨hs, t, ht, hl⟩ | ⟨hs, hcome⟩
    · rcases List.mem_cons.mp ht with rfl | ht
      · rcases hleads hl with ⟨hl', hst⟩ | ⟨-, hst, -⟩
        · exact .inl ⟨hst.trans hs, cur', by simp, hl'⟩
        · rw [← h.ends t List.mem_cons_self hl]
          exact .inr (hst hs)
      · rcases h.roles cur List.mem_cons_self with hf | hl'
        · exact .inl ⟨(hfollows hf).2.trans hs, t, by simp [ht], hl⟩
        · rcases hleads hl' with ⟨-, hst⟩ | ⟨-, hst, -⟩
          · exact .inl ⟨hst.trans hs, t, by simp [ht], hl⟩
          · rw [← h.ends cur List.mem_cons_self hl']
            exact .inr (hst hs)
    · refine .inr ⟨?_, hcome⟩
      rcases h.roles cur List.mem_cons_self with hf | hl
      · exact (hfollows hf).2.trans hs
      · rcases hleads hl with ⟨-, hst⟩ | ⟨-, -, hst⟩
        · exact hst.trans hs
        · exact (hst (by simp [hs])).trans hs

/-- A task with nothing ahead of it may go. -/
theorem drop (h : Prospects c voices plan finish root s status ds (cur :: rest))
    (hdebts : cur.debts s.now = []) (hidle : actionsOf cur.agenda = []) (hleads : ¬cur.Leads root) :
    Prospects c voices plan finish root s status ds rest := by
  have hplan : Prospects c voices plan finish root s status (ds ++ []) ([] ++ rest) := by
    refine h.replace rfl rfl (Nat.le_refl _) ?_ (by simp) .nil (by simp) ?_ (by simp) ?_ (by simp)
      (by simp) ?_
    · exact fun t ht ↦ (h.regular t (List.mem_cons_of_mem _ ht)).waiting
    · intro x _ _
      funext tally
      refine ext_come fun n ↦ ?_
      rw [come_outlook, come_outlook, List.flatMap_cons, hdebts, List.nil_append, List.nil_append]
    · have hnone : (cur.prospect c (outlook s.now (cur :: rest)) s.now).1 = [] := prospect_idle hidle
      rw [hnone]
      rfl
    · refine h.status.imp_left fun ⟨hs, t, ht, hl⟩ ↦ ⟨hs, t, ?_, hl⟩
      rcases List.mem_cons.mp ht with rfl | ht
      · exact absurd hl hleads
      · exact ht
  rwa [List.append_nil] at hplan

end Prospects

end Storyline
