import Axe.Lib.Stateful
import Axe.Fuzzer.Corpus

/-!
# Mutations

All randomness comes from one generator. An operation on a buffer that leaves it, an insertion
behind its end and a difference below zero are faults.
-/
namespace Axe.Fuzzer

open Checked (Fault slice)
open Stateful (Prog lift repeatFor)

structure Xorshift64 where
  state : BitVec 64

namespace Xorshift64

def new (seed : BitVec 64) : Xorshift64 := ⟨if seed = 0 then 0x9E3779B97F4A7C15 else seed⟩

def advance (x : BitVec 64) : BitVec 64 :=
  let x := x ^^^ x <<< 13
  let x := x ^^^ x >>> 7
  x ^^^ x <<< 17

end Xorshift64

abbrev Draw := Prog Xorshift64

def nextU64 : Draw (BitVec 64) := fun rng =>
  let x := Xorshift64.advance rng.state
  .ok (x, ⟨x⟩)

/-- An index below a length, zero where there is none. -/
def range (n : Nat) : Draw Nat := do
  if n = 0 then return 0
  let x ← nextU64
  return x.toNat % n

def nextU8 : Draw UInt8 := do
  let x ← nextU64
  return UInt8.ofNat x.toNat

def nextBool : Draw Bool := do
  let x ← nextU64
  return x.getLsbD 0

/-- The byte at an index, changed. -/
def modifyAt (buf : List UInt8) (idx : Nat) (f : UInt8 → UInt8) : Except Fault (List UInt8) :=
  match buf[idx]? with
  | some b => .ok (buf.set idx (f b))
  | none => .error (.range idx (idx + 1) buf.length)

def insertAt (buf : List UInt8) (pos : Nat) (b : UInt8) : Except Fault (List UInt8) :=
  if pos ≤ buf.length then .ok (buf.take pos ++ b :: buf.drop pos)
  else .error (.range pos pos buf.length)

def drain (buf : List UInt8) (start stop : Nat) : Except Fault (List UInt8) :=
  if start ≤ stop ∧ stop ≤ buf.length then .ok (buf.take start ++ buf.drop stop)
  else .error (.range start stop buf.length)

/-- A range of the buffer overwritten with as many bytes. -/
def copyFromSlice (buf : List UInt8) (start stop : Nat) (bytes : List UInt8) :
    Except Fault (List UInt8) :=
  if start ≤ stop ∧ stop ≤ buf.length ∧ bytes.length = stop - start then
    .ok (buf.take start ++ bytes ++ buf.drop stop)
  else .error (.range start stop buf.length)

def minus (a b : Nat) : Except Fault Nat := if b ≤ a then .ok (a - b) else .error (.overflow 64)

/-- One bit of a byte. -/
def bitMask (bit : Nat) : Except Fault UInt8 :=
  if bit < 8 then .ok (UInt8.ofNat (2 ^ bit)) else .error (.overflow 8)

def insertAll (pos : Nat) : List UInt8 → List UInt8 → Except Fault (List UInt8)
  | [], buf => .ok buf
  | b :: rest, buf => do insertAll (pos + 1) rest (← insertAt buf pos b)

def havocByteFlip (buf : List UInt8) : Draw (List UInt8) := do
  if buf = [] then return buf
  let idx ← range buf.length
  let bit ← range 8
  let mask ← lift (bitMask bit)
  lift (modifyAt buf idx (· ^^^ mask))

def havocByteArith (plus : Bool) (buf : List UInt8) : Draw (List UInt8) := do
  if buf = [] then return buf
  let idx ← range buf.length
  let delta := UInt8.ofNat ((← range 35) + 1)
  lift (modifyAt buf idx fun b => if plus then b + delta else b - delta)

def havocByteXor (buf : List UInt8) : Draw (List UInt8) := do
  if buf = [] then return buf
  let idx ← range buf.length
  let x ← nextU8
  lift (modifyAt buf idx (· ^^^ x))

def havocByteOverwrite (buf : List UInt8) : Draw (List UInt8) := do
  if buf = [] then return buf
  let idx ← range buf.length
  let x ← nextU8
  lift (modifyAt buf idx fun _ => x)

def havocInsert (buf : List UInt8) : Draw (List UInt8) := do
  let pos ← range (buf.length + 1)
  let count := 1 + (← range 8)
  repeatFor (fun i buf => do lift (insertAt buf (pos + i) (← nextU8))) count 0 buf

def havocDelete (buf : List UInt8) : Draw (List UInt8) := do
  if buf.length < 2 then return buf
  let pos ← range buf.length
  let count := min (1 + (← range 8)) (← lift (minus buf.length pos))
  lift (drain buf pos (pos + count))

def havocChunkSwap (buf : List UInt8) : Draw (List UInt8) := do
  if buf.length < 4 then return buf
  let maxChunk := max (buf.length / 2) 1
  let chunk := 1 + (← range maxChunk)
  let src ← range ((← lift (minus buf.length chunk)) + 1)
  let dst ← range ((← lift (minus buf.length chunk)) + 1)
  if src = dst then return buf
  let scratch ← lift (slice buf src (src + chunk))
  lift (copyFromSlice buf dst (dst + chunk) scratch)

/-- One of the eight operations. -/
def havocStep (op : Nat) (buf : List UInt8) : Draw (List UInt8) :=
  match op with
  | 0 => havocByteFlip buf
  | 1 => havocByteArith true buf
  | 2 => havocByteArith false buf
  | 3 => havocByteOverwrite buf
  | 4 => havocInsert buf
  | 5 => havocDelete buf
  | 6 => havocByteXor buf
  | _ => havocChunkSwap buf

def applyHavoc (input : Input) : Draw (List UInt8) := do
  let stackDepth := 1 + (← range 4)
  repeatFor (fun _ buf => do havocStep (← range 8) buf) stackDepth 0 input

/-- A random place in an input, zero in the empty one. -/
def placeBelow (input : Input) (n : Nat) : Draw Nat := if input = [] then pure 0 else range n

def spliceFrom (input : Input) (splicePool : List Input) : Draw (Option (List UInt8)) := do
  if splicePool = [] then return none
  let idx ← range splicePool.length
  match splicePool[idx]? with
  | none => lift (.error (.range idx (idx + 1) splicePool.length))
  | some other =>
    if other = [] then return none
    let splitA ← placeBelow input input.length
    let splitB ← range other.length
    let rest ← lift (minus other.length splitB)
    let front ← lift (slice input 0 splitA)
    let back ← lift (slice other splitB (splitB + rest))
    return some (front ++ back)

/-- A token of the dictionary. -/
def pickToken (tokens : List (List UInt8)) : Draw (Option (List UInt8)) := do
  if tokens = [] then return none
  let idx ← range tokens.length
  match tokens[idx]? with
  | none => lift (.error (.range idx (idx + 1) tokens.length))
  | some token => return some token

/-- A token inserted or, where there is room, sometimes written over the input. -/
def placeToken (input : Input) (token : List UInt8) : Draw (List UInt8) := do
  let pos ← placeBelow input (input.length + 1)
  let insertion ← nextBool
  if insertion = true ∨ input.length < pos + token.length then lift (insertAll pos token input)
  else lift (copyFromSlice input pos (pos + token.length) token)

def applyDict (input : Input) (tokens : List (List UInt8)) : Draw (Option (List UInt8)) := do
  match ← pickToken tokens with
  | none => return none
  | some token => return some (← placeToken input token)

def boundaryValue (seed : BitVec 64) (slot : Nat) : BitVec 64 :=
  let shifted := seed.rotateLeft (slot * 11 % 2 ^ 32 % 64)
  match (shifted.toNat % 8) with
  | 0 => 0
  | 1 => 1
  | 2 => 0x00000000FFFFFFFF
  | 3 => 0xFFFFFFFFFFFFFFFF
  | 4 => 0x000000007FFFFFFF
  | 5 => 0x0000000000100000
  | 6 => 0x0000000000000100
  | _ => shifted

def applyBoundaryValue (input : Input) : Draw (List UInt8) := do
  if input.length < 8 then return input
  let pos ← range (← lift (minus input.length 7))
  let value := boundaryValue (← nextU64) 0
  lift (copyFromSlice input pos (pos + 8) (leBytes 8 value.toNat))

inductive Mutator where
  | havoc | splice | dict | boundaryValue | cmpGuided
  deriving DecidableEq

structure MutateCtx where
  dict : List (List UInt8)
  splicePool : List Input
  maxLen : Nat

/-- The mutated bytes and what was applied in the end. -/
def applyMutation (input : Input) (mutator : Mutator) (ctx : MutateCtx) :
    Draw (List UInt8 × Mutator) := do
  match mutator with
  | .havoc => return (← applyHavoc input, .havoc)
  | .splice =>
    match ← spliceFrom input ctx.splicePool with
    | some v => return (v, .splice)
    | none => return (← applyHavoc input, .havoc)
  | .dict =>
    match ← applyDict input ctx.dict with
    | some v => return (v, .dict)
    | none => return (← applyHavoc input, .havoc)
  | .boundaryValue => return (← applyBoundaryValue input, .boundaryValue)
  | .cmpGuided => return (← applyHavoc input, .havoc)

def pickMutator (n : Nat) : Mutator :=
  if n ≤ 4 then .havoc
  else if n ≤ 6 then .boundaryValue
  else if n = 7 then .splice
  else if n = 8 then .dict
  else .cmpGuided

def applyRandomMutation (input : Input) (ctx : MutateCtx) : Draw (List UInt8 × Mutator) := do
  let pick := pickMutator (← range 10)
  let (mutated, applied) ← applyMutation input pick ctx
  return (mutated.take ctx.maxLen, applied)

end Axe.Fuzzer
