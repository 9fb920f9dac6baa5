import Storyline.Bench
import Storyline.Proofs.Playback.Books

/-!
# Scopes worked by hand

Scopes are entered, tickets released or dropped, and counts reset, in any order.
What has been done tells the counts: each stub of the log says of one ticket what
it was taken for, whether its scope has been reset since, and what has become of
it.
-/

namespace Storyline

namespace Bench

open Playback

/-- What is done to scopes by hand.  Scopes and tickets are named by the order in
which they were taken. -/
inductive Deed where
  | openScope (parent : Option Nat)
  | enter (scope : Nat) (tapBlocking : Bool)
  | release (ticket : Nat)
  | drop (ticket : Nat)
  | reset (scope : Nat)
  | resetAll
deriving DecidableEq, Repr

def Deed.request : Deed → Request
  | openScope parent => .scope parent
  | enter scope tapBlocking => .enter scope tapBlocking
  | release ticket => .release ticket
  | drop ticket => .dropTicket ticket
  | reset scope => .reset scope
  | resetAll => .resetScopes

/-- Does a deed; nothing happens if it names a scope that has not been opened. -/
def act (d : Deed) (b : Bench) : Bench :=
  match b.handle d.request with
  | .ok (b', _) => b'
  | .error _ => b

def worked (ds : List Deed) (b : Bench) : Bench := ds.foldl (fun b d ↦ b.act d) b

/-! ## The log -/

/-- What is known of a ticket without a look at any counter. -/
structure Stub where
  scope : Nat
  tapBlocking : Bool
  /-- Whether its scope has not been reset since. -/
  current : Bool
  /-- Whether it has been neither released nor dropped. -/
  held : Bool
  released : Bool
deriving DecidableEq, Repr

/-- Whether a ticket has been taken for a scope since its last reset and not been
released; it may have been dropped. -/
def Stub.counts (scope : Nat) (s : Stub) : Bool := s.scope == scope && s.current && !s.released

/-- No ticket of the scopes in question is current any more. -/
def Stub.expire (scopes : Nat → Bool) (s : Stub) : Stub :=
  if scopes s.scope then { s with current := false } else s

structure Log where
  /-- How many scopes have been opened. -/
  opened : Nat
  stubs : List Stub
deriving DecidableEq, Repr

namespace Log

def empty : Log := ⟨0, []⟩

/-- A ticket can be used up once. -/
def use (released : Bool) (n : Nat) (l : Log) : Log :=
  match l.stubs[n]? with
  | some s => if s.held then { l with stubs := l.stubs.set n { s with held := false, released } } else l
  | none => l

def expire (scopes : Nat → Bool) (l : Log) : Log :=
  { l with stubs := l.stubs.map (Stub.expire scopes) }

def note (d : Deed) (l : Log) : Log :=
  match d with
  | .openScope none => { l with opened := l.opened + 1 }
  | .openScope (some parent) => if parent < l.opened then { l with opened := l.opened + 1 } else l
  | .enter scope tapBlocking =>
    if scope < l.opened then { l with stubs := l.stubs ++ [⟨scope, tapBlocking, true, true, false⟩] }
    else l
  | .release n => l.use true n
  | .drop n => l.use false n
  | .reset scope => l.expire (· == scope)
  | .resetAll => l.expire fun _ ↦ true

def of (ds : List Deed) : Log := ds.foldl (fun l d ↦ l.note d) empty

end Log

/-! ## Stubs and tickets -/

/-- A ticket and its stub. -/
structure Slip where
  stub : Stub
  ticket : Ticket

namespace Slip

/-- What the holder of the ticket has in hand. -/
def inHand (x : Slip) : Option Ticket := if x.stub.held then some x.ticket else none

def use (released : Bool) (x : Slip) : Slip :=
  ⟨{ x.stub with held := false, released }, x.ticket⟩

/-- The ticket says what the stub says, apart from resets. -/
structure Genuine (x : Slip) : Prop where
  scope : x.ticket.scope = x.stub.scope
  tap : x.ticket.tapEpoch.isSome = x.stub.tapBlocking
  even : ∀ epoch, x.ticket.tapEpoch = some epoch → epoch = x.ticket.epoch
  unused : x.stub.held = true → x.stub.released = false

theorem Genuine.use {x : Slip} (h : x.Genuine) (released : Bool) : (x.use released).Genuine :=
  ⟨h.scope, h.tap, h.even, fun hheld ↦ by cases hheld⟩

end Slip

/-- The tickets that have not been released. -/
def unreleased (xs : List Slip) : List Ticket :=
  (xs.filter fun x ↦ !x.stub.released).map Slip.ticket

/-- The epoch of a scope tells which of its tickets are current. -/
structure Dated (xs : List Slip) (sc : Scope) : Prop where
  past : ∀ x ∈ xs, x.stub.scope = sc.id → x.ticket.epoch ≤ sc.actions.epoch
  current : ∀ x ∈ xs, x.stub.scope = sc.id →
    x.stub.current = decide (x.ticket.epoch = sc.actions.epoch)

/-- The counts of a scope are those of the unreleased tickets. -/
structure Filed (xs : List Slip) (sc : Scope) : Prop extends Dated xs sc where
  balanced : sc.Balanced (unreleased xs)

section

variable {xs ys zs : List Slip} {x y : Slip} {sc : Scope}

theorem unreleased_append : unreleased (xs ++ ys) = unreleased xs ++ unreleased ys := by
  simp [unreleased]

theorem unreleased_cons :
    unreleased (x :: xs) = if x.stub.released then unreleased xs else x.ticket :: unreleased xs := by
  cases h : x.stub.released <;> simp [unreleased, h]

theorem standing_eq (h : Filed xs sc) (hx : x ∈ xs) (hg : x.Genuine) :
    x.ticket.standing sc = (x.stub.scope == sc.id && x.stub.current) := by
  unfold Ticket.standing
  rw [hg.scope]
  by_cases he : x.stub.scope = sc.id
  · rw [h.current x hx he]
    simp only [he, beq_self_eq_true, Bool.true_and]
    rfl
  · have hne : (x.stub.scope == sc.id) = false := by simpa using he
    simp [hne]

/-- The counts of a scope are those that the stubs tell. -/
theorem Filed.pending (h : Filed xs sc) (hg : ∀ x ∈ xs, x.Genuine) :
    sc.outstanding = (xs.map Slip.stub).countP (fun s ↦ s.counts sc.id) ∧
      sc.outstandingTaps = (xs.map Slip.stub).countP (fun s ↦ s.counts sc.id && s.tapBlocking) := by
  unfold Scope.outstanding Scope.outstandingTaps
  rw [h.balanced.actions, h.balanced.taps, unreleased]
  simp only [List.countP_map, List.countP_filter]
  constructor
  · refine List.countP_congr fun x hx ↦ ?_
    simp only [Function.comp_apply, standing_eq h hx (hg x hx), Stub.counts]
  · refine List.countP_congr fun x hx ↦ ?_
    have htap := (hg x hx).tap
    simp only [Function.comp_apply, Ticket.tappable, standing_eq h hx (hg x hx), Stub.counts, htap,
      Bool.and_eq_true]
    exact and_right_comm

/-- A ticket that counts and is in hand has its part in each count that it can
release. -/
theorem Filed.pos (h : Filed xs sc) (hx : x ∈ xs) (hg : x.Genuine) (hheld : x.stub.held = true)
    (hid : x.ticket.scope = sc.id) :
    (∀ epoch, x.ticket.tapEpoch = some epoch → sc.taps.epoch = epoch → 0 < sc.taps.pending) ∧
      (sc.actions.epoch = x.ticket.epoch → 0 < sc.actions.pending) := by
  have hmem : x.ticket ∈ unreleased xs := by
    refine List.mem_map_of_mem (List.mem_filter.mpr ⟨hx, ?_⟩)
    simp [hg.unused hheld]
  constructor
  · intro epoch htap hepoch
    rw [h.balanced.taps]
    refine List.countP_pos_iff.mpr ⟨x.ticket, hmem, ?_⟩
    have hlevel := h.balanced.level
    have heven := hg.even epoch htap
    simp [Ticket.tappable, Ticket.standing, hid, htap]
    omega
  · intro hepoch
    rw [h.balanced.actions]
    exact List.countP_pos_iff.mpr ⟨x.ticket, hmem, by simp [Ticket.standing, hid, hepoch]⟩

/-- The release of a ticket from before the last reset changes nothing. -/
theorem Filed.stale (h : Filed xs sc) (hx : x ∈ xs) (hg : x.Genuine) (hid : x.ticket.scope = sc.id)
    (hold : x.stub.current = false) : sc.release x.ticket = sc := by
  have hepoch : sc.actions.epoch ≠ x.ticket.epoch := by
    have hcurrent := h.current x hx (hg.scope ▸ hid)
    rw [hold] at hcurrent
    exact Ne.symm (of_decide_eq_false hcurrent.symm)
  have hactions : sc.actions.release x.ticket.epoch = sc.actions := by
    simp [Counter.release, Counter.counts, hepoch]
  unfold Scope.release
  cases htap : x.ticket.tapEpoch with
  | none => simp only [Scope.modify, hactions]
  | some epoch =>
      have htaps : sc.taps.release epoch = sc.taps := by
        have hne : sc.taps.epoch ≠ epoch := by
          rw [h.balanced.level, hg.even epoch htap]
          exact hepoch
        simp [Counter.release, Counter.counts, hne]
      simp only [Scope.modify, htaps, hactions]

/-! ## What a deed does to one scope -/

theorem Dated.append (h : Dated xs sc) (hpast : x.stub.scope = sc.id → x.ticket.epoch ≤ sc.actions.epoch)
    (hcurrent : x.stub.scope = sc.id → x.stub.current = decide (x.ticket.epoch = sc.actions.epoch)) :
    Dated (xs ++ [x]) sc := by
  constructor <;> intro z hz hid <;> rcases List.mem_append.mp hz with hz | hz
  · exact h.past z hz hid
  · exact List.mem_singleton.mp hz ▸ hpast (List.mem_singleton.mp hz ▸ hid)
  · exact h.current z hz hid
  · exact List.mem_singleton.mp hz ▸ hcurrent (List.mem_singleton.mp hz ▸ hid)

/-- Neither the use of a ticket nor a change of the counts alone changes the dates. -/
theorem Dated.use {sc' : Scope} (h : Dated (ys ++ x :: zs) sc) (released : Bool)
    (hid : sc'.id = sc.id) (hepoch : sc'.actions.epoch = sc.actions.epoch) :
    Dated (ys ++ x.use released :: zs) sc' := by
  have hmem : ∀ z ∈ ys ++ x.use released :: zs, ∃ w ∈ ys ++ x :: zs, w.ticket = z.ticket ∧
      w.stub.scope = z.stub.scope ∧ w.stub.current = z.stub.current := by
    intro z hz
    rcases List.mem_append.mp hz with hz | hz
    · exact ⟨z, List.mem_append_left _ hz, rfl, rfl, rfl⟩
    rcases List.mem_cons.mp hz with rfl | hz
    · exact ⟨x, by simp, rfl, rfl, rfl⟩
    · exact ⟨z, by simp [hz], rfl, rfl, rfl⟩
  constructor <;> intro z hz he <;> obtain ⟨w, hw, hticket, hscope, hcurrent⟩ := hmem z hz
  · rw [← hticket, hepoch]
    exact h.past w hw (hscope.trans (he.trans hid))
  · rw [← hticket, ← hcurrent, hepoch]
    exact h.current w hw (hscope.trans (he.trans hid))

/-- A slip that concerns another scope changes nothing. -/
theorem Filed.insert (h : Filed xs sc) (hg : x.Genuine) (hne : x.stub.scope ≠ sc.id) :
    Filed (xs ++ [x]) sc := by
  refine ⟨h.toDated.append (fun he ↦ absurd he hne) (fun he ↦ absurd he hne), ?_⟩
  rw [unreleased_append, unreleased_cons]
  split
  · simpa [unreleased] using h.balanced
  · refine ((Scope.Balanced.other ?_).mpr h.balanced).perm (List.perm_append_singleton _ _).symm
    rwa [hg.scope]

theorem Filed.enter (h : Filed xs sc) (hself : x.ticket = sc.ticket x.stub.tapBlocking)
    (hfresh : x.stub.released = false) (hcurrent : x.stub.current = true) :
    Filed (xs ++ [x]) (sc.enter x.stub.tapBlocking) := by
  have hid := Scope.enter_id x.stub.tapBlocking sc
  have hepoch := Scope.enter_epoch x.stub.tapBlocking sc
  have hticket : x.ticket.epoch = sc.actions.epoch := by rw [hself]; rfl
  have hdated : Dated xs (sc.enter x.stub.tapBlocking) :=
    ⟨fun z hz he ↦ hepoch ▸ h.past z hz (he.trans hid),
      fun z hz he ↦ hepoch ▸ h.current z hz (he.trans hid)⟩
  refine ⟨hdated.append (fun _ ↦ by omega) (fun _ ↦ by simp [hcurrent, hticket, hepoch]), ?_⟩
  rw [unreleased_append, unreleased_cons, if_neg (by simp [hfresh]), hself]
  exact (h.balanced.enter x.stub.tapBlocking).perm (List.perm_append_singleton _ _).symm

/-- A ticket that is dropped counts as before. -/
theorem Filed.drop (h : Filed (ys ++ x :: zs) sc) (hunused : x.stub.released = false) :
    Filed (ys ++ x.use false :: zs) sc := by
  refine ⟨h.toDated.use false rfl rfl, ?_⟩
  have hsame : unreleased (ys ++ x.use false :: zs) = unreleased (ys ++ x :: zs) := by
    simp only [unreleased_append, unreleased_cons, Slip.use, hunused]
  exact hsame ▸ h.balanced

theorem Filed.release (h : Filed (ys ++ x :: zs) sc) (hg : x.Genuine)
    (hunused : x.stub.released = false) :
    Filed (ys ++ x.use true :: zs)
      (if sc.id == x.ticket.scope then sc.release x.ticket else sc) := by
  have hless : unreleased (ys ++ x.use true :: zs) = unreleased (ys ++ zs) := by
    simp [unreleased_append, unreleased_cons, Slip.use]
  have hmore : sc.Balanced (x.ticket :: unreleased (ys ++ zs)) := by
    refine h.balanced.perm ?_
    rw [unreleased_append, unreleased_cons, if_neg (by simp [hunused]), unreleased_append]
    exact List.perm_middle
  by_cases he : sc.id = x.ticket.scope
  · have hepoch : (sc.release x.ticket).actions.epoch = sc.actions.epoch := by
      rw [Scope.release_actions, Counter.release_epoch]
    rw [if_pos (by simpa using he)]
    exact ⟨h.toDated.use true (Scope.release_id _ _) hepoch, hless ▸ hmore.release he.symm hg.even⟩
  · rw [if_neg (by simpa using he)]
    exact ⟨h.toDated.use true rfl rfl, hless ▸ (Scope.Balanced.other (Ne.symm he)).mp hmore⟩

def Slip.expire (scopes : Nat → Bool) (x : Slip) : Slip := ⟨x.stub.expire scopes, x.ticket⟩

theorem same_expire (scopes : Nat → Bool) (s : Stub) : (s.expire scopes).scope = s.scope ∧
    (s.expire scopes).held = s.held ∧ (s.expire scopes).released = s.released := by
  unfold Stub.expire
  split <;> exact ⟨rfl, rfl, rfl⟩

theorem unreleased_expire (scopes : Nat → Bool) :
    unreleased (xs.map (Slip.expire scopes)) = unreleased xs := by
  induction xs with
  | nil => rfl
  | cons x xs ih =>
      have hsame : (x.expire scopes).stub.released = x.stub.released :=
        (same_expire scopes x.stub).2.2
      rw [List.map_cons, unreleased_cons, unreleased_cons, ih, hsame]
      rfl

theorem Filed.expire {scopes : Nat → Bool} (h : Filed xs sc) (hg : ∀ x ∈ xs, x.Genuine) :
    Filed (xs.map (Slip.expire scopes)) (if scopes sc.id then sc.reset else sc) := by
  have hpast : ∀ t ∈ unreleased xs, t.scope = sc.id → t.epoch ≤ sc.actions.epoch := by
    intro t ht hid
    obtain ⟨x, hx, rfl⟩ := List.mem_map.mp ht
    have hmem := (List.mem_filter.mp hx).1
    exact h.past x hmem ((hg x hmem).scope ▸ hid)
  cases hin : scopes sc.id with
  | true =>
      rw [if_pos rfl]
      refine ⟨⟨?_, ?_⟩, (unreleased_expire scopes).symm ▸ h.balanced.reset hpast⟩
      all_goals
        intro z hz hid
        obtain ⟨x, hx, rfl⟩ := List.mem_map.mp hz
        have hscope : x.stub.scope = sc.id := (same_expire scopes x.stub).1.symm.trans hid
        have hle := h.past x hx hscope
        have hnext : sc.reset.actions.epoch = sc.actions.epoch + 1 := rfl
        rw [hnext]
      · exact Nat.le_succ_of_le hle
      · have hold : ¬x.ticket.epoch = sc.actions.epoch + 1 := by omega
        simp [Slip.expire, Stub.expire, hscope, hin, hold]
  | false =>
      rw [if_neg (by simp)]
      refine ⟨⟨?_, ?_⟩, (unreleased_expire scopes).symm ▸ h.balanced⟩
      all_goals
        intro z hz hid
        obtain ⟨x, hx, rfl⟩ := List.mem_map.mp hz
        have hscope : x.stub.scope = sc.id := (same_expire scopes x.stub).1.symm.trans hid
      · exact h.past x hx hscope
      · have hkept : x.expire scopes = x := by simp [Slip.expire, Stub.expire, hscope, hin]
        rw [hkept]
        exact h.current x hx hscope

theorem genuine_expire (hg : x.Genuine) (scopes : Nat → Bool) : (x.expire scopes).Genuine := by
  unfold Slip.expire Stub.expire
  split
  · exact ⟨hg.scope, hg.tap, hg.even, hg.unused⟩
  · exact hg

end

/-! ## What a deed does to a bench -/

/-- The slips file what the log tells and what the bench has. -/
structure Filing (l : Log) (xs : List Slip) (b : Bench) : Prop where
  stubs : l.stubs = xs.map Slip.stub
  tickets : b.tickets = xs.map Slip.inHand
  genuine : ∀ x ∈ xs, x.Genuine
  within : ∀ x ∈ xs, x.stub.scope < l.opened
  taken : b.scopes = (List.range l.opened).map some
  ids : b.session.scopes.map Scope.id = List.range l.opened
  serial : b.session.serial = l.opened
  filed : ∀ sc ∈ b.session.scopes, Filed xs sc

namespace Filing

variable {l : Log} {xs : List Slip} {b : Bench}

theorem numbered (h : Filing l xs b) : b.session.Numbered := by
  refine ⟨h.ids ▸ List.nodup_range, fun sc hsc ↦ ?_⟩
  have hmem : sc.id ∈ List.range l.opened := h.ids ▸ List.mem_map_of_mem hsc
  exact h.serial ▸ List.mem_range.mp hmem

theorem scopeAt (h : Filing l xs b) (k : Nat) :
    b.scopeAt k = if k < l.opened then .ok k else .error .scope := by
  unfold Bench.scopeAt
  rw [h.taken]
  by_cases hk : k < l.opened
  · simp [hk]
  · simp [hk]

theorem scope_of_lt (h : Filing l xs b) {k : Nat} (hk : k < l.opened) :
    ∃ sc ∈ b.session.scopes, sc.id = k := by
  have hmem : k ∈ b.session.scopes.map Scope.id := h.ids ▸ List.mem_range.mpr hk
  exact List.mem_map.mp hmem

/-- The slip of the ticket that is taken `n`-th, between the others. -/
theorem slip_at (h : Filing l xs b) {n : Nat} {s : Stub} (hs : l.stubs[n]? = some s) :
    ∃ ys x zs, xs = ys ++ x :: zs ∧ ys.length = n ∧ x.stub = s := by
  rw [h.stubs, List.getElem?_map] at hs
  obtain ⟨x, hx, rfl⟩ := Option.map_eq_some_iff.mp hs
  obtain ⟨hn, rfl⟩ := List.getElem?_eq_some_iff.mp hx
  refine ⟨xs.take n, xs[n], xs.drop (n + 1), ?_, ?_, rfl⟩
  · rw [List.getElem_cons_drop, List.take_append_drop]
  · simp only [List.length_take]
    omega

/-- A change of the session that keeps the scopes' names. -/
theorem session (h : Filing l xs b) {ys : List Slip} {l' : Log} {p : Playback}
    {tickets : List (Option Ticket)} (hstubs : l'.stubs = ys.map Slip.stub)
    (htickets : tickets = ys.map Slip.inHand) (hopened : l'.opened = l.opened)
    (hys : ∀ y ∈ ys, y.Genuine ∧ y.stub.scope < l.opened)
    (hids : p.session.scopes.map Scope.id = b.session.scopes.map Scope.id)
    (hserial : p.session.serial = b.session.serial)
    (hfiled : ∀ sc ∈ p.session.scopes, Filed ys sc) :
    Filing l' ys { b with playback := p, tickets := tickets } :=
  ⟨hstubs, htickets, fun y hy ↦ (hys y hy).1, fun y hy ↦ hopened ▸ (hys y hy).2,
    hopened ▸ h.taken, hopened ▸ hids.trans h.ids, hopened ▸ hserial.trans h.serial, hfiled⟩

theorem opens (h : Filing l xs b) (parent : Option Nat) :
    Filing { l with opened := l.opened + 1 } xs (b.handleScope parent).1 := by
  refine ⟨h.stubs, h.tickets, h.genuine, fun x hx ↦ Nat.lt_succ_of_lt (h.within x hx), ?_, ?_,
    congrArg (· + 1) h.serial, ?_⟩
  · change b.scopes ++ [some b.session.serial] = _
    rw [h.taken, h.serial, List.range_succ, List.map_append]
    rfl
  · change (b.session.scopes ++ [Scope.fresh b.session.serial parent]).map Scope.id = _
    rw [List.map_append, h.ids, h.serial, List.range_succ]
    rfl
  · intro sc hsc
    rcases List.mem_append.mp hsc with hsc | hsc
    · exact h.filed sc hsc
    -- no ticket is from the new scope
    obtain rfl := List.mem_singleton.mp hsc
    have hother : ∀ x ∈ xs, x.stub.scope ≠ b.session.serial := by
      intro x hx
      have := h.within x hx
      have := h.serial
      omega
    refine ⟨⟨fun x hx he ↦ absurd he (hother x hx), fun x hx he ↦ absurd he (hother x hx)⟩,
      ⟨?_, ?_, rfl⟩⟩
    all_goals
      refine (List.countP_eq_zero.mpr fun t ht ↦ ?_).symm
      obtain ⟨x, hx, rfl⟩ := List.mem_map.mp ht
      have hmem := (List.mem_filter.mp hx).1
      have hne : x.ticket.scope ≠ b.session.serial := (h.genuine x hmem).scope ▸ hother x hmem
      simp [Ticket.tappable, Ticket.standing, Scope.fresh, hne]

theorem enters (h : Filing l xs b) {k : Nat} (hk : k < l.opened) (tapBlocking : Bool) :
    ∃ ys, Filing { l with stubs := l.stubs ++ [⟨k, tapBlocking, true, true, false⟩] } ys
      (b.handleEnter k tapBlocking).1 := by
  obtain ⟨sc, hsc, rfl⟩ := h.scope_of_lt hk
  have hticket := Session.ticket_eq h.numbered hsc tapBlocking
  refine ⟨xs ++ [⟨⟨sc.id, tapBlocking, true, true, false⟩, sc.ticket tapBlocking⟩], ?_⟩
  have hlevel := (h.filed sc hsc).balanced.level
  have hgenuine : Slip.Genuine ⟨⟨sc.id, tapBlocking, true, true, false⟩, sc.ticket tapBlocking⟩ := by
    refine ⟨rfl, by cases tapBlocking <;> rfl, fun epoch he ↦ ?_, fun _ ↦ rfl⟩
    cases tapBlocking
    · cases he
    · exact (Option.some.inj he).symm.trans hlevel
  unfold handleEnter
  rw [hticket]
  refine h.session (by simp [h.stubs]) (by simp [h.tickets, Slip.inHand]) rfl ?_ ?_ ?_ ?_
  · intro y hy
    rcases List.mem_append.mp hy with hy | hy
    · exact ⟨h.genuine y hy, h.within y hy⟩
    · obtain rfl := List.mem_singleton.mp hy
      exact ⟨hgenuine, hk⟩
  · rw [enter_eq_touch, touch_session]
    exact Session.map_id_modifyScope (Scope.enter_id tapBlocking)
  · rw [enter_eq_touch, touch_session]
    rfl
  · rw [enter_eq_touch, touch_session]
    intro other hother
    obtain ⟨old, hold, rfl⟩ := List.mem_map.mp hother
    by_cases he : old.id = sc.id
    · obtain rfl := h.numbered.eq_of_id hold hsc he
      simpa using (h.filed old hold).enter (x := ⟨⟨old.id, tapBlocking, true, true, false⟩,
        old.ticket tapBlocking⟩) rfl rfl rfl
    · simpa [he] using (h.filed old hold).insert hgenuine (Ne.symm he)

/-- A ticket that is in hand is used up. -/
theorem uses (h : Filing l xs b) (released : Bool) (n : Nat) :
    ∃ ys, Filing (l.use released n) ys (b.handleTicket released n).1 := by
  unfold Log.use handleTicket Bench.ticketAt
  cases hs : l.stubs[n]? with
  | none =>
      have hnone : b.tickets[n]? = none := by
        rw [h.stubs, List.getElem?_map, Option.map_eq_none_iff] at hs
        rw [h.tickets, List.getElem?_map, hs]
        rfl
      rw [hnone]
      exact ⟨xs, h⟩
  | some s =>
      obtain ⟨ys, x, zs, rfl, rfl, rfl⟩ := h.slip_at hs
      have hx : x ∈ ys ++ x :: zs := by simp
      have hgx := h.genuine x hx
      have hat : (b.tickets[ys.length]?).join = x.inHand := by
        rw [h.tickets]
        simp
      rw [hat]
      by_cases hheld : x.stub.held = true
      · have hunused := hgx.unused hheld
        simp only [Slip.inHand, hheld, if_true]
        refine ⟨ys ++ x.use released :: zs, h.session ?_ ?_ rfl ?_ ?_ ?_ ?_⟩
        · simp [h.stubs, Slip.use]
        · simp [h.tickets, Slip.inHand, Slip.use]
        · intro z hz
          rcases List.mem_append.mp hz with hz | hz
          · exact ⟨h.genuine z (by simp [hz]), h.within z (by simp [hz])⟩
          rcases List.mem_cons.mp hz with rfl | hz
          · exact ⟨hgx.use released, h.within x hx⟩
          · exact ⟨h.genuine z (by simp [hz]), h.within z (by simp [hz])⟩
        all_goals cases released
        · rfl
        · simp only [if_true, release_session h.numbered]
          exact Session.map_id_modifyScope (Scope.release_id x.ticket)
        · rfl
        · simp only [if_true, release_session h.numbered]
          rfl
        · exact fun sc hsc ↦ (h.filed sc hsc).drop hunused
        · simp only [if_true, release_session h.numbered]
          intro sc hsc
          obtain ⟨old, hold, rfl⟩ := List.mem_map.mp hsc
          exact (h.filed old hold).release hgx hunused
      · simp only [Slip.inHand, hheld]
        exact ⟨_, h⟩

theorem expires (h : Filing l xs b) {scopes : Nat → Bool} {p : Playback}
    (hp : p.session.scopes = b.session.scopes.map fun sc ↦ if scopes sc.id then sc.reset else sc)
    (hserial : p.session.serial = b.session.serial) :
    Filing (l.expire scopes) (xs.map (Slip.expire scopes)) { b with playback := p } := by
  refine h.session ?_ ?_ rfl ?_ ?_ hserial ?_
  · simp [Log.expire, h.stubs, Slip.expire]
  · simp only [h.tickets, List.map_map]
    refine List.map_congr_left fun x _ ↦ ?_
    have hheld : (x.expire scopes).stub.held = x.stub.held := (same_expire scopes x.stub).2.1
    unfold Slip.inHand
    rw [Function.comp_apply, hheld]
    rfl
  · intro y hy
    obtain ⟨x, hx, rfl⟩ := List.mem_map.mp hy
    have hscope : (x.expire scopes).stub.scope = x.stub.scope :=
      (same_expire scopes x.stub).1
    exact ⟨genuine_expire (h.genuine x hx) scopes, hscope ▸ h.within x hx⟩
  · rw [hp, List.map_map]
    refine List.map_congr_left fun sc _ ↦ ?_
    simp only [Function.comp_apply]
    split <;> rfl
  · rw [hp]
    intro sc hsc
    obtain ⟨old, hold, rfl⟩ := List.mem_map.mp hsc
    exact (h.filed old hold).expire h.genuine

/-- A deed that names a scope is done if there is one. -/
theorem act_at (h : Filing l xs b) {d : Deed} {k : Nat} {f : Nat → Bench × Response}
    (hd : b.handle d.request = b.scopeAt k >>= fun id ↦ pure (f id)) :
    b.act d = if k < l.opened then (f k).1 else b := by
  unfold Bench.act
  rw [hd, h.scopeAt]
  by_cases hk : k < l.opened
  · rw [if_pos hk, if_pos hk]
    rfl
  · rw [if_neg hk, if_neg hk]
    rfl

/-- Every deed is filed. -/
theorem act (h : Filing l xs b) (d : Deed) : ∃ ys, Filing (l.note d) ys (b.act d) := by
  cases d with
  | openScope parent =>
      cases parent with
      | none => exact ⟨xs, h.opens none⟩
      | some k =>
          rw [h.act_at (f := fun id ↦ b.handleScope (some id)) rfl]
          simp only [Log.note]
          split
          · exact ⟨xs, h.opens (some k)⟩
          · exact ⟨xs, h⟩
  | enter k tapBlocking =>
      rw [h.act_at (f := fun id ↦ b.handleEnter id tapBlocking) rfl]
      simp only [Log.note]
      split
      next hk => exact h.enters hk tapBlocking
      next => exact ⟨xs, h⟩
  | release n => exact h.uses true n
  | drop n => exact h.uses false n
  | reset k =>
      rw [h.act_at (f := fun id ↦ (b.mapPlayback (.resetScope id), .nothing)) rfl]
      refine ⟨xs.map (Slip.expire (· == k)), ?_⟩
      split
      next hk =>
        apply h.expires <;> rw [resetScope_eq_touch, touch_session] <;> rfl
      next hk =>
        refine h.expires (p := b.playback) ?_ rfl
        refine ((List.map_congr_left fun sc hsc ↦ ?_).trans (List.map_id _)).symm
        have hmem : sc.id ∈ List.range l.opened := h.ids ▸ List.mem_map_of_mem hsc
        have hne : sc.id ≠ k := fun he ↦ hk (he ▸ List.mem_range.mp hmem)
        simp [hne]
  | resetAll =>
      refine ⟨xs.map (Slip.expire fun _ ↦ true), ?_⟩
      apply h.expires (p := b.playback.resetScopes) <;>
        rw [resetScopes_eq_touch, touch_session] <;> rfl

/-- Whatever has been done, it is filed. -/
theorem worked (h : Filing l xs b) (ds : List Deed) :
    ∃ ys, Filing (ds.foldl (fun l d ↦ l.note d) l) ys (b.worked ds) := by
  induction ds generalizing l xs b with
  | nil => exact ⟨xs, h⟩
  | cons d ds ih =>
      obtain ⟨ys, hact⟩ := h.act d
      exact ih hact

/-- A ticket in hand has a slip. -/
theorem slip_of_ticketAt (h : Filing l xs b) {n : Nat} {t : Ticket} (ht : b.ticketAt n = some t) :
    ∃ x ∈ xs, x.ticket = t ∧ x.stub.held = true ∧ l.stubs[n]? = some x.stub := by
  unfold Bench.ticketAt at ht
  rw [h.tickets, List.getElem?_map] at ht
  cases hx : xs[n]? with
  | none => simp [hx] at ht
  | some x =>
      simp only [hx, Option.map_some, Option.join_some, Slip.inHand, Option.ite_none_right_eq_some,
        Option.some.injEq] at ht
      refine ⟨x, List.mem_of_getElem? hx, ht.2, ht.1, ?_⟩
      rw [h.stubs, List.getElem?_map, hx]
      rfl

theorem stale (h : Filing l xs b) {n : Nat} {s : Stub} (hs : l.stubs[n]? = some s)
    (hold : s.current = false) : (b.act (.release n)).session = b.session := by
  change (b.handleTicket true n).1.session = b.session
  unfold handleTicket
  cases ht : b.ticketAt n with
  | none => rfl
  | some t =>
      obtain ⟨x, hx, rfl, -, hstub⟩ := h.slip_of_ticketAt ht
      obtain rfl : x.stub = s := Option.some.inj (hstub.symm.trans hs)
      refine (release_session h.numbered x.ticket).trans (Session.modifyScope_eq_self ?_)
      exact fun sc hsc hid ↦ (h.filed sc hsc).stale hx (h.genuine x hx) hid.symm hold

end Filing

theorem filing_new (config : Config) (host : Host) (voices : VoiceCache) :
    Filing .empty [] (new config host voices) :=
  ⟨rfl, rfl, by simp, by simp, rfl, rfl, rfl, by simp [new, session, Session.new, Playback.new]⟩

/-- However scopes are worked, their counts are those of the log; a ticket from before
the last reset no longer counts, and no release of a ticket finds a count of zero in
its epoch. -/
theorem counts_of_log (config : Config) (host : Host) (voices : VoiceCache) (ds : List Deed) :
    let b := (new config host voices).worked ds
    let l := Log.of ds
    b.tickets.map Option.isSome = l.stubs.map Stub.held ∧
    (∀ k < l.opened, ∃ sc, b.scopeAt k = .ok sc.id ∧ b.session.scope? sc.id = some sc ∧
      sc.outstanding = l.stubs.countP (fun s ↦ s.counts k) ∧
      sc.outstandingTaps = l.stubs.countP (fun s ↦ s.counts k && s.tapBlocking) ∧
      sc.outstandingTaps ≤ sc.outstanding) ∧
    (∀ (n : Nat) (s : Stub), l.stubs[n]? = some s → s.current = false →
      (b.act (.release n)).session.scopes = b.session.scopes) ∧
    ∀ (n : Nat) (t : Ticket), b.ticketAt n = some t → ∃ sc, b.session.scope? t.scope = some sc ∧
      (∀ epoch, t.tapEpoch = some epoch → sc.taps.epoch = epoch → 0 < sc.taps.pending) ∧
      (sc.actions.epoch = t.epoch → 0 < sc.actions.pending) := by
  intro b l
  obtain ⟨xs, h⟩ : ∃ xs, Filing l xs b := (filing_new config host voices).worked ds
  refine ⟨?_, fun k hk ↦ ?_, fun n s hs hold ↦ ?_, fun n t ht ↦ ?_⟩
  · rw [h.tickets, h.stubs, List.map_map, List.map_map]
    refine List.map_congr_left fun x _ ↦ ?_
    cases hheld : x.stub.held <;> simp [Slip.inHand, hheld]
  · obtain ⟨sc, hsc, rfl⟩ := h.scope_of_lt hk
    obtain ⟨hactions, htaps⟩ := (h.filed sc hsc).pending h.genuine
    rw [← h.stubs] at hactions htaps
    refine ⟨sc, (h.scopeAt sc.id).trans (if_pos hk), Session.scope?_eq h.numbered hsc, hactions, htaps, ?_⟩
    rw [hactions, htaps]
    exact List.countP_mono_left fun s _ hs ↦ (Bool.and_eq_true_iff.mp hs).1
  · rw [h.stale hs hold]
  · obtain ⟨x, hx, rfl, hheld, -⟩ := h.slip_of_ticketAt ht
    have hgenuine := h.genuine x hx
    obtain ⟨sc, hsc, hid⟩ := h.scope_of_lt (h.within x hx)
    have hscope : x.ticket.scope = sc.id := hgenuine.scope.trans hid.symm
    refine ⟨sc, hscope ▸ Session.scope?_eq h.numbered hsc, ?_⟩
    exact (h.filed sc hsc).pos hx hgenuine hheld hscope

end Bench

end Storyline
