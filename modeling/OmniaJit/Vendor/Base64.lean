import OmniaJit.Data.BitString
import OmniaJit.Lua.LibString

/-! # `base64`

Both functions write into C arrays whose size they work out beforehand. A write outside of the array is not
defined; in the model the function then gives nothing.
-/

namespace OmniaJit.Vendor.Base64

open OmniaJit.Data OmniaJit.Lua OmniaJit.Lua.LibString

/-- `arr[k] = v` -/
def store {α : Type} (arr : List α) (k : ℕ) (v : α) : Option (List α) :=
  if k < arr.length then some (arr.set k v) else none

def mime64chars : Bytes := ascii "ABCDEFGHIJKLMNOPQRSTUVWXYZabcdefghijklmnopqrstuvwxyz0123456789+/"

/-- `mime64lookup[c]`: 255 for a character that is not one of the 64. -/
def mime64lookup (c : UInt8) : ℕ := if c ∈ mime64chars then mime64chars.idxOf c else 0xFF

section Decode

/-- The loop that skips the characters between: a value from 0 to 63 and what follows it. -/
def next : Bytes → Option (ℕ × Bytes)
  | [] => none
  | c :: s => if mime64lookup c ≠ 0xFF then some (mime64lookup c, s) else next s

theorem next_length {s rest : Bytes} {m64 : ℕ} (found : next s = some (m64, rest)) : rest.length < s.length := by
  induction s with
  | nil => cases found
  | cons c s ih =>
    rw [next] at found
    split_ifs at found
    · cases found
      exact Nat.lt_succ_self _
    · exact (ih found).trans (Nat.lt_succ_self _)

/-- The loop of `decode`, with `m` bytes written: the array and the number of bytes at the label `done`. -/
def decodeLoop (arr : Bytes) (m : ℕ) (s : Bytes) : Option (Bytes × ℕ) :=
  match _first : next s with
  | none => some (arr, m)
  | some (m64, s) =>
    let b1 := m64 <<< 2
    match _second : next s with
    | none => some (arr, m)
    | some (m64, s) => do
      let arr ← store arr m (b1 ||| m64 >>> 4).toUInt8
      let b1 := m64 <<< 4
      match _third : next s with
      | none => some (arr, m + 1)
      | some (m64, s) => do
        let arr ← store arr (m + 1) (b1 ||| m64 >>> 2).toUInt8
        let b1 := m64 <<< 6
        match _fourth : next s with
        | none => some (arr, m + 2)
        | some (m64, s) => do
          let arr ← store arr (m + 2) (b1 ||| m64).toUInt8
          decodeLoop arr (m + 3) s
termination_by s.length
decreasing_by
  exact (next_length _fourth).trans ((next_length _third).trans
    ((next_length _second).trans (next_length _first)))

/-- The size of the array: `bit.rshift` takes its first argument modulo 2^32. -/
def decodedRoom (sz : ℕ) : ℕ := (sz * 3 % 2 ^ 32) >>> 2

def decode (str : Bytes) : Option Bytes := do
  let (arr, m) ← decodeLoop (List.replicate (decodedRoom str.length) 0) 0 str
  some (arr.take m)

end Decode

section Encode

/-- A `uint16_t` as its two bytes in memory. -/
abbrev Short := UInt8 × UInt8

/-- The bytes of a number, on a machine whose lower byte comes first if `le`. -/
def short (le : Bool) (v : ℕ) : Short :=
  if le then (v.toUInt8, (v >>> 8).toUInt8) else ((v >>> 8).toUInt8, v.toUInt8)

def mime64char (i : ℕ) : ℕ := (mime64chars.getD i 0).toNat

/-- `mime64shorts[n]`, whose entry `i * 64 + j` holds two characters. -/
def mime64shorts (le : Bool) (n : ℕ) : ℕ :=
  let i := n / 64
  let j := n % 64
  if le then mime64char j * 256 + mime64char i else mime64char i * 256 + mime64char j

def crlf16 (le : Bool) : ℕ := if le then 0x0A * 256 + 0x0D else 0x0D * 256 + 0x0A

def eq : UInt8 := '='.toUInt8

/-- The variables of `encode`: the array, the units written, and where the next line break is. -/
structure Encoder where
  m64arr : List Short
  k : ℕ
  c : ℤ

/-- What stands behind the label `encode_last3`. -/
def encodeGroup (le : Bool) (v : ℕ) (e : Encoder) : Option Encoder := do
  let e ←
    if e.c = e.k then do
      let m64arr ← store e.m64arr e.k (short le (crlf16 le))
      some { m64arr, k := e.k + 1, c := e.k + 1 + 38 }
    else some e
  let m64arr ← store e.m64arr e.k (short le (mime64shorts le (v >>> 12)))
  let m64arr ← store m64arr (e.k + 1) (short le (mime64shorts le (v &&& 4095)))
  some { e with m64arr, k := e.k + 2 }

/-- The loop over three bytes each, and the one or two that are left. -/
def encodeLoop (le : Bool) : Bytes → Encoder → Option Encoder
  | b :: b' :: b'' :: s, e => do
    let e ← encodeGroup le (b.toNat <<< 16 ||| b'.toNat <<< 8 ||| b''.toNat) e
    encodeLoop le s e
  | [b, b'], e => do
    let e ← encodeGroup le (b.toNat <<< 16 ||| b'.toNat <<< 8) e
    -- the second byte of the last unit
    let last ← e.m64arr[e.k - 1]?
    let m64arr ← store e.m64arr (e.k - 1) (last.1, eq)
    some { e with m64arr }
  | [b], e => do
    let e ← encodeGroup le (b.toNat <<< 16) e
    let m64arr ← store e.m64arr (e.k - 1) (short le (eq.toNat <<< 8 ||| eq.toNat))
    some { e with m64arr }
  | [], e => some e

/-- The number of units in the array. -/
def outlen (sz : ℕ) : ℕ := sz * 2 / 3 + sz * 2 / 3 / 19 + 3

def encode (le : Bool) (str : Bytes) (enable_break : Bool) : Option Bytes := do
  let m64arr := List.replicate (outlen str.length) (0, 0)
  let e ← encodeLoop le str { m64arr, k := 0, c := if enable_break then 38 else -1 }
  some ((e.m64arr.take e.k).flatMap fun unit => [unit.1, unit.2])

example : encode true (ascii "fooba") false = some (ascii "Zm9vYmE=") := by decide +kernel

end Encode

end OmniaJit.Vendor.Base64
