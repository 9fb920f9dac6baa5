import Storyline.Json.Reader

/-!
# The voice cache

Voices are kept by path.  Failures to fetch one are collected until taken.
-/

namespace Storyline

inductive VoiceFailure where
  | file (message : String)
  | empty
  | timeout
deriving DecidableEq, Repr

def VoiceFailure.message : VoiceFailure → String
  | file message => "I/O error while reading voice: " ++ message
  | empty => "Voice is empty"
  | timeout => "Operation timed out"

structure VoiceError where
  failure : VoiceFailure
  path : Option String
deriving DecidableEq, Repr

namespace VoiceError

def message (e : VoiceError) : String :=
  match e.path with
  | some path => "kind: " ++ e.failure.message ++ ", path: " ++ path
  | none => "kind: " ++ e.failure.message

/-- Names the voice that was asked for, unless the error names one itself. -/
def about (path : String) (e : VoiceError) : VoiceError :=
  { e with path := some (e.path.getD path) }

end VoiceError

structure VoiceCache where
  blobs : List (String × Bytes)
  errors : List VoiceError
deriving DecidableEq, Repr, Inhabited

namespace VoiceCache

def empty : VoiceCache := ⟨[], []⟩

def get? (c : VoiceCache) (path : String) : Option Bytes := c.blobs.lookup path

def contains (c : VoiceCache) (path : String) : Bool := (c.get? path).isSome

def size (c : VoiceCache) : Nat := c.blobs.length

def insert (path : String) (blob : Bytes) (c : VoiceCache) : VoiceCache :=
  { c with blobs := (path, blob) :: c.blobs.filter (fun b ↦ b.1 != path) }

def recordError (e : VoiceError) (c : VoiceCache) : VoiceCache :=
  { c with errors := c.errors ++ [e] }

/-- The collected errors, and the cache without them. -/
def takeErrors (c : VoiceCache) : List VoiceError × VoiceCache :=
  (c.errors, { c with errors := [] })

end VoiceCache

end Storyline
