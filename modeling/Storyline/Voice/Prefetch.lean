import Storyline.Action.Basic
import Storyline.SortBy
import Storyline.Voice.Cache

/-!
# Fetching voices ahead

Before a story is played its voices are fetched, each path once and at most
`fetchLimit` at a time.  A fetch starts as soon as a place is free; one that
takes longer than `fetchTimeout` milliseconds is given up.
-/

namespace Storyline

def fetchLimit : Nat := 32

def fetchTimeout : Nat := 24000

/-- What a fetch comes to, and after how many milliseconds; a fetch without a
delay never ends by itself. -/
structure Reply where
  delay : Option Nat
  result : Except VoiceError Bytes

abbrev Fetcher := String → Reply

/-- A fetch with the times of its start and its end. -/
structure Fetch where
  path : String
  start : Nat
  finish : Nat
  result : Except VoiceError Bytes
  /-- Whether it was given up, so that the fetcher still waits for it. -/
  abandoned : Bool

namespace Prefetch

def timedOut : VoiceError := ⟨.timeout, none⟩

def fetchAt (fetch : Fetcher) (start : Nat) (path : String) : Fetch :=
  let reply := fetch path
  match reply.delay with
  | some delay =>
    if delay ≤ fetchTimeout then ⟨path, start, start + delay, reply.result, false⟩
    else ⟨path, start, start + fetchTimeout, .error timedOut, true⟩
  | none => ⟨path, start, start + fetchTimeout, .error timedOut, true⟩

/-- The fetches of the given paths in order; `busy` holds the times at which the
places taken so far become free. -/
def schedule (fetch : Fetcher) : List Nat → List String → List Fetch
  | _, [] => []
  | busy, path :: rest =>
    let start := if busy.length < fetchLimit then 0 else busy.min?.getD 0
    let busy := if busy.length < fetchLimit then busy else busy.erase start
    let f := fetchAt fetch start path
    f :: schedule fetch (f.finish :: busy) rest

/-- Fetches in the order of their ends; of those that end together, the one
that started first comes first. -/
def byFinish (fetches : List Fetch) : List Fetch := sortBy Fetch.finish fetches

/-- The paths without repetitions, each where it is first. -/
def distinct (paths : List String) : List String :=
  paths.foldl (fun seen path ↦ if seen.contains path then seen else seen ++ [path]) []

/-- The voices of a story that are not in the cache. -/
def missing (cache : VoiceCache) (actions : List Action) : List String :=
  (distinct (actions.flatMap Action.voicePaths)).filter (fun path ↦ !cache.contains path)

def keep (cache : VoiceCache) (f : Fetch) : VoiceCache :=
  match f.result with
  | .ok blob => cache.insert f.path blob
  | .error e => cache.recordError (e.about f.path)

def succeeded (f : Fetch) : Bool :=
  match f.result with
  | .ok _ => true
  | .error _ => false

end Prefetch

/-- A finished prefetch: the fetches in the order of their starts, and the cache. -/
structure Prefetch where
  fetches : List Fetch
  cache : VoiceCache

namespace Prefetch

def run (fetch : Fetcher) (cache : VoiceCache) (actions : List Action) : Prefetch :=
  let fetches := schedule fetch [] (missing cache actions)
  ⟨fetches, (byFinish fetches).foldl keep cache⟩

/-- How many voices were added. -/
def count (p : Prefetch) : Nat := p.fetches.countP succeeded

/-- How long it took. -/
def elapsed (p : Prefetch) : Nat := (p.fetches.map Fetch.finish).foldl max 0

/-- How many of the given fetches the fetcher waits for at a time. -/
def waitingAt (time : Nat) (fetches : List Fetch) : Nat :=
  fetches.countP (fun f ↦ f.abandoned || decide (time < f.finish))

def peakOf : List Fetch → List Fetch → Nat
  | _, [] => 0
  | earlier, f :: rest => max (waitingAt f.start earlier + 1) (peakOf (earlier ++ [f]) rest)

/-- The most fetches that the fetcher waited for at once. -/
def peak (p : Prefetch) : Nat := peakOf [] p.fetches

end Prefetch

end Storyline
