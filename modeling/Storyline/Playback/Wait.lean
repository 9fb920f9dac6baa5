import Storyline.Playback.Basic

/-!
# Looking at a wait

When a task has its turn, each of its waits is looked at: it goes on, perhaps
changed, or it ends.  The end of the session comes before everything else, and
a wait that it cuts short ends without having run.
-/

namespace Storyline

/-- What a look at a wait shows. -/
inductive Verdict where
  | waits (wait : Wait)
  | ends (ran : Bool)
  /-- The task cannot go on at all. -/
  | fails
deriving DecidableEq, Repr

namespace Playback

/-! ## Parked actions -/

/-- Playing by itself moves on: nobody has to tap any more. -/
def moveOn (park : Nat) (p : Playback) : Playback × Verdict :=
  (p.unpark park, .ends true)

/-- Waits out the last timer before moving on. -/
def dwell (park : Nat) (dwell : Dwell) (d : Duration) (p : Playback) : Playback × Verdict :=
  let timer := p.timer (d.endFrom p.session.now)
  if timer.isDue p.session.now then p.arm.moveOn park
  else (p.arm, .waits (.tap park dwell (.dwelling timer)))

/-- Waits for the next look at the voice. -/
def listen (park : Nat) (start ticks : Nat) (p : Playback) : Playback × Verdict :=
  let timer := p.timer (p.session.config.voicePoll.period.tickFrom start ticks)
  (p.arm, .waits (.tap park .voice (.listening start ticks timer)))

/-- Playing by itself begins to count.  A period that the clock cannot show
makes the task fail. -/
def beginLingering (park : Nat) (p : Playback) : Dwell → Playback × Verdict
  | .fixed d => p.dwell park (.fixed d) d
  | .voice =>
    match p.session.config.voicePoll.period.tickFrom p.session.now 1 with
    | some _ => p.listen park p.session.now 1
    | none => (p, .fails)

/-- A wait for a tap ends once the action is no longer parked.  While playing by
itself is off its time does not count, and it counts anew when switched on. -/
def lookAtTap (park : Nat) (kind : Dwell) (auto : Lingering) (p : Playback) :
    Playback × Verdict :=
  if p.session.cancelled then (p, .ends false)
  else if !p.session.isParked park then (p, .ends true)
  else if !p.session.autoPlay then (p, .waits (.tap park kind .off))
  else
    match auto with
    | .off => p.beginLingering park kind
    | .listening start ticks timer =>
      if !timer.isDue p.session.now then (p, .waits (.tap park kind auto))
      else if p.session.isSpeaking then p.listen park start (ticks + 1)
      else p.dwell park kind p.session.config.voiceTail
    | .dwelling timer =>
      if timer.isDue p.session.now then p.moveOn park
      else (p, .waits (.tap park kind auto))

/-! ## Sleeps, counts and the end -/

def lookAtSleep (timer : Timer) (skips : Nat) (p : Playback) : Playback × Verdict :=
  if p.session.cancelled then (p, .ends false)
  else if timer.isDue p.session.now || p.session.skips != skips then (p, .ends true)
  else (p, .waits (.sleep timer skips))

def lookAtCount (scope : Nat) (tally : Tally) (guarded : Bool) (p : Playback) :
    Playback × Verdict :=
  if guarded && p.session.cancelled then (p, .ends false)
  else if p.session.pending scope tally = 0 then (p, .ends true)
  else (p, .waits (.drained scope tally guarded))

/-! ## Shakes -/

/-- Whether offsets between minus and plus a magnitude can be drawn. -/
def canSway (magnitude : Binary32) : Bool :=
  magnitude.isFinite && !magnitude.isZero

/-- Whether the distance between minus and plus a magnitude is a number. -/
def spans (magnitude : Binary32) : Bool :=
  (magnitude.addAbs magnitude).isFinite

/-- Draws an offset; a shake that has ended or has no magnitude is still. -/
def drawOffset (finished : Bool) (p : Playback) : Playback × (Binary32 × Binary32) :=
  let magnitude := p.session.config.shakeMagnitude.abs
  if finished || !canSway magnitude then (p, Stage.still)
  else
    let n := p.session.draws
    (p.update (fun s ↦ { s with draws := n + 2 }),
      (p.session.host.sway n magnitude, p.session.host.sway (n + 1) magnitude))

def waitForFrame (shake : Shake) (stamp : Nat) (d : Duration) (start ticks : Nat)
    (p : Playback) : Playback × Verdict :=
  let timer := p.timer (p.session.config.shakeFrame.period.tickFrom start ticks)
  (p.arm, .waits (.frame shake stamp d start ticks timer))

/-- A frame moves the shaken target.  The shake ends with the first frame after
its duration, or when another shake has taken its target over. -/
def lookAtFrame (shake : Shake) (stamp : Nat) (d : Duration) (start ticks : Nat) (timer : Timer)
    (p : Playback) : Playback × Verdict :=
  if !timer.isDue p.session.now then (p, .waits (.frame shake stamp d start ticks timer))
  else
    let finished := decide (d.nanos ≤ (Duration.ofMillis (p.session.now - start)).nanos)
    let magnitude := p.session.config.shakeMagnitude.abs
    if !finished && canSway magnitude && !spans magnitude then (p, .fails)
    else
      let (p, offset) := p.drawOffset finished
      let change := Stage.sway shake stamp finished offset
      let current := p.session.accepts change
      let p := p.update (.presentIf change)
      if finished || !current then (p, .ends true)
      else p.waitForFrame shake stamp d start (ticks + 1)

/-! ## Fast-forward -/

def waitForTick (start ticks : Nat) (p : Playback) : Playback × Verdict :=
  let timer := p.timer (p.session.config.fastForwardInterval.period.tickFrom start ticks)
  (p.arm, .waits (.forward (some (start, ticks, timer))))

/-- A tick of fast-forward: all counts become zero, all sleeps end, and the
latest parked action is resumed. -/
def fastForwardTick (p : Playback) : Playback := p.resetScopes.skip.tap

def lookAtForward (ticker : Option (Nat × Nat × Timer)) (p : Playback) : Playback × Verdict :=
  if !p.session.fastForward then (p, .waits (.forward none))
  else
    match ticker with
    | none =>
      match p.session.config.fastForwardInterval.period.tickFrom p.session.now 1 with
      | some _ => p.waitForTick p.session.now 1
      | none => (p, .fails)
    | some (start, ticks, timer) =>
      if timer.isDue p.session.now then p.fastForwardTick.waitForTick start (ticks + 1)
      else (p, .waits (.forward ticker))

def look (wait : Wait) (p : Playback) : Playback × Verdict :=
  match wait with
  | .tap park kind auto => p.lookAtTap park kind auto
  | .sleep timer skips => p.lookAtSleep timer skips
  | .drained scope tally guarded => p.lookAtCount scope tally guarded
  | .cancelled => (p, if p.session.cancelled then .ends true else .waits .cancelled)
  | .frame shake stamp d start ticks timer => p.lookAtFrame shake stamp d start ticks timer
  | .forward ticker => p.lookAtForward ticker

/-! ## Suspending -/

/-- What is done at the end of a wait that was not cut short. -/
def finish (ending : Ending) (p : Playback) : Playback :=
  match ending with
  | .nothing => p
  | .release ticket => p.release ticket
  | .clearTelop text ticket => (p.update (.presentIf (Stage.clearTelop text))).release ticket
  | .coverShown cover stamp ticket =>
    (p.update (.presentIf (Stage.coverShown cover stamp))).release ticket
  | .background path => p.update (.present (Stage.setScenery path .background))
  | .completed => if p.status = .playing then { p with status := .completed } else p

/-- Leaves a pause behind in the present turn. -/
def leave (pause : Pause) (p : Playback) : Playback :=
  p.updateTurn (fun t ↦ { t with pauses := t.pauses ++ [pause] })

/-- Looks at a wait and leaves a pause behind, if it goes on. -/
def suspend (wait : Wait) (ending : Ending) (scopes : List Nat) (p : Playback) : Playback :=
  match p.look wait with
  | (p, .waits wait) => p.leave ⟨wait, ending, scopes⟩
  | (p, .ends ran) => if ran then p.finish ending else p
  | (p, .fails) =>
    (p.leave ⟨wait, ending, scopes⟩).updateTurn (fun t ↦ { t with failed := true })

/-- Sleeps for a duration from now. -/
def sleep (d : Duration) (ending : Ending) (scopes : List Nat) (p : Playback) : Playback :=
  let timer := p.timer (d.endFrom p.session.now)
  p.arm.suspend (.sleep timer p.session.skips) ending scopes

end Playback

end Storyline
