import OmniaJit.Vendor.Base64

/-! # What `base64` encodes and decodes

The text of a byte string is its bits in groups of six, filled up with zeros, and written with the 64 characters.
Decoding takes the bits of those characters in a text, wherever they stand, and reads them as bytes.
-/

namespace OmniaJit.Vendor.Base64

open OmniaJit.Data OmniaJit.Lua OmniaJit.Lua.LibString

/-- The values of the characters of a text that are among the 64. -/
def sextets (str : Bytes) : List ℕ :=
  str.filterMap fun c => if mime64lookup c ≠ 0xFF then some (mime64lookup c) else none

/-- The complete bytes of the bits of these values. -/
def octets (ns : List ℕ) : Bytes := (groups 8 (ns.flatMap (bits 6))).map Nat.toUInt8

section Decode

theorem next_eq (s : Bytes) :
    (next s = none ∧ sextets s = []) ∨
      ∃ m64 rest, next s = some (m64, rest) ∧ sextets s = m64 :: sextets rest ∧ m64 < 64 := by
  induction s with
  | nil => exact .inl ⟨rfl, rfl⟩
  | cons c s ih =>
    rw [next, sextets, List.filterMap_cons, ← sextets]
    by_cases mime : mime64lookup c ≠ 0xFF
    · rw [if_pos mime, if_pos mime]
      refine .inr ⟨_, s, rfl, rfl, ?_⟩
      rw [mime64lookup] at mime ⊢
      split_ifs at mime ⊢ with member
      · exact List.idxOf_lt_length_of_mem member
      · exact absurd rfl mime
    · rw [if_neg mime, if_neg mime]
      exact ih

theorem toUInt8_mod (n : ℕ) : (n % 2 ^ 8).toUInt8 = n.toUInt8 := UInt8.toNat_inj.mp (by simp)

/-- One more byte of a bit string. -/
theorem octets_cons {n : ℕ} {l rest : List Bool} (front : l = bits 8 n ++ rest) :
    (groups 8 l).map Nat.toUInt8 = n.toUInt8 :: (groups 8 rest).map Nat.toUInt8 := by
  rw [front, groups_bits_append (by decide), List.map_cons, toUInt8_mod]

theorem octets_short {l : List Bool} (short : l.length < 8) : (groups 8 l).map Nat.toUInt8 = [] := by
  rw [groups_short short, List.map_nil]

section Phases

variable {a b c d : ℕ} {ns : List ℕ}

/-- The first character leaves six bits, and no byte. -/
theorem octets_one : octets [a] = [] := octets_short (by simp [bits_length])

/-- The second one completes a byte and leaves four bits. -/
theorem octets_two (b_lt : b < 64) : octets (a :: b :: ns) =
    (a <<< 2 ||| b >>> 4).toUInt8 :: (groups 8 (bits 4 b ++ ns.flatMap (bits 6))).map Nat.toUInt8 := by
  apply octets_cons
  rw [List.flatMap_cons, List.flatMap_cons, ← List.append_assoc, ← List.append_assoc]
  exact congrArg (· ++ _) (bits_append_bits (j := 2) (k := 4) b_lt)

/-- The third one completes a byte and leaves two bits. -/
theorem octets_three (c_lt : c < 64) : (groups 8 (bits 4 b ++ (c :: ns).flatMap (bits 6))).map Nat.toUInt8 =
    (b <<< 4 ||| c >>> 2).toUInt8 :: (groups 8 (bits 2 c ++ ns.flatMap (bits 6))).map Nat.toUInt8 := by
  apply octets_cons
  rw [List.flatMap_cons, ← List.append_assoc, ← List.append_assoc]
  exact congrArg (· ++ _) (bits_append_bits (j := 4) (k := 2) c_lt)

/-- The fourth one completes a byte and leaves none. -/
theorem octets_four (d_lt : d < 64) : (groups 8 (bits 2 c ++ (d :: ns).flatMap (bits 6))).map Nat.toUInt8 =
    (c <<< 6 ||| d).toUInt8 :: octets ns := by
  apply octets_cons
  rw [List.flatMap_cons, ← List.append_assoc]
  exact congrArg (· ++ _) (bits_or (i := 2) (j := 6) d_lt).symm

end Phases

/-- Bytes written one behind the other. -/
def storeAll (arr : Bytes) (m : ℕ) : Bytes → Option (Bytes × ℕ)
  | [] => some (arr, m)
  | v :: d => do
    let arr ← store arr m v
    storeAll arr (m + 1) d

theorem store_append {α : Type} (written free : List α) (x v : α) :
    store (written ++ x :: free) written.length v = some (written ++ v :: free) := by
  rw [store, if_pos (by simp), List.set_append_right _ _ (Nat.le_refl _), Nat.sub_self, List.set_cons_zero]

theorem storeAll_append (written free d : Bytes) :
    storeAll (written ++ free) written.length d =
      if d.length ≤ free.length then some (written ++ d ++ free.drop d.length, written.length + d.length)
      else none := by
  induction d generalizing written free with
  | nil => simp [storeAll]
  | cons v d ih =>
    rw [storeAll]
    cases free with
    | nil => simp [store]
    | cons x free =>
      have more := ih (written ++ [v]) free
      rw [List.append_assoc, List.singleton_append, List.length_append, List.length_singleton] at more
      rw [store_append, Option.bind_eq_bind, Option.bind_some, more]
      simp only [List.length_cons, Nat.add_le_add_iff_right, List.drop_succ_cons, List.append_assoc,
        List.cons_append, List.nil_append, Nat.add_assoc, Nat.add_comm 1]

theorem sextets_of_next {s rest : Bytes} {m64 : ℕ} (found : next s = some (m64, rest)) :
    sextets s = m64 :: sextets rest ∧ m64 < 64 := by
  rcases next_eq s with ⟨nothing, -⟩ | ⟨m64', rest', found', whole, less⟩
  · cases found.symm.trans nothing
  · obtain ⟨rfl, rfl⟩ := Prod.mk.inj (Option.some.inj (found.symm.trans found'))
    exact ⟨whole, less⟩

theorem sextets_of_none {s : Bytes} (nothing : next s = none) : sextets s = [] := by
  rcases next_eq s with ⟨-, empty⟩ | ⟨m64, rest, found, -⟩
  · exact empty
  · cases nothing.symm.trans found

/-- `decode` writes the bytes of the values that it finds. -/
theorem decodeLoop_eq (arr : Bytes) (m : ℕ) (s : Bytes) :
    decodeLoop arr m s = storeAll arr m (octets (sextets s)) := by
  induction length : s.length using Nat.strong_induction_on generalizing arr m s with
  | _ n ih =>
    subst length
    rw [decodeLoop.eq_def]
    split
    · rename_i nothing
      rw [sextets_of_none nothing, octets, List.flatMap_nil, octets_short (by simp)]
      rfl
    rename_i a s1 first
    dsimp only
    split
    · rename_i nothing
      rw [(sextets_of_next first).1, sextets_of_none nothing, octets_one]
      rfl
    rename_i b s2 second
    rw [(sextets_of_next first).1, (sextets_of_next second).1, octets_two (sextets_of_next second).2, storeAll]
    apply bind_congr
    intro arr
    split
    · rename_i nothing
      rw [sextets_of_none nothing, octets_short (by simp [bits_length])]
      rfl
    rename_i c s3 third
    rw [(sextets_of_next third).1, octets_three (sextets_of_next third).2, storeAll]
    apply bind_congr
    intro arr
    split
    · rename_i nothing
      rw [sextets_of_none nothing, octets_short (by simp [bits_length])]
      rfl
    rename_i d s4 fourth
    rw [(sextets_of_next fourth).1, octets_four (sextets_of_next fourth).2, storeAll]
    apply bind_congr
    intro arr
    have shorter : s4.length < s.length :=
      (next_length fourth).trans ((next_length third).trans ((next_length second).trans (next_length first)))
    exact ih s4.length shorter arr (m + 3) s4 rfl

theorem octets_length (ns : List ℕ) : (octets ns).length = ns.length * 6 / 8 := by
  have length : (ns.flatMap (bits 6)).length = ns.length * 6 := by simp [List.length_flatMap, bits_length]
  rw [octets, List.length_map, groups_length (by decide), length]

/-- Decoding gives the bytes of the bits of the 64 characters in a text, if they fit into the array. -/
theorem decode_eq (str : Bytes) : decode str =
    if (sextets str).length * 6 / 8 ≤ str.length * 3 % 2 ^ 32 / 4 then some (octets (sextets str)) else none := by
  have room : decodedRoom str.length = str.length * 3 % 2 ^ 32 / 4 := by
    rw [decodedRoom, Nat.shiftRight_eq_div_pow]
  have filled := storeAll_append [] (List.replicate (decodedRoom str.length) 0) (octets (sextets str))
  rw [List.nil_append, List.nil_append, List.length_nil, Nat.zero_add, List.length_replicate, octets_length,
    room] at filled
  rw [decode, decodeLoop_eq, room, filled]
  split_ifs
  · rw [Option.bind_eq_bind, Option.bind_some, ← octets_length]
    exact congrArg some (List.take_left ..)
  · rfl

end Decode

section Encode

/-- The character for six bits. -/
def char6 (i : ℕ) : UInt8 := mime64chars.getD i 0

/-- How many characters are missing in the last group of four. -/
def padding (n : ℕ) : ℕ := (3 - n % 3) % 3

def bitString (s : Bytes) : List Bool := s.flatMap fun b => bits 8 b.toNat

/-- The text of a byte string. -/
def encoded (s : Bytes) : Bytes :=
  (groups 6 (bitString s ++ List.replicate (2 * padding s.length) false)).map char6 ++
    List.replicate (padding s.length) eq

/-- A list in pieces of `n` elements, the last of which may be shorter. -/
def chunks {α : Type} (n : ℕ) (l : List α) : List (List α) :=
  if 0 < n ∧ l ≠ [] then l.take n :: chunks n (l.drop n) else []
termination_by l.length
decreasing_by
  rename_i room
  have := List.length_pos_of_ne_nil room.2
  rw [List.length_drop]
  omega

/-- A text with a line end after every 76 characters that are not the last ones. -/
def wrapped (text : Bytes) : Bytes := (ascii "\r\n").intercalate (chunks 76 text)

section Units

theorem toUInt8_byte (a b : UInt8) :
    (a.toNat * 256 + b.toNat).toUInt8 = b ∧ ((a.toNat * 256 + b.toNat) >>> 8).toUInt8 = a := by
  have a_lt := a.toNat_lt
  have b_lt := b.toNat_lt
  constructor <;> apply UInt8.toNat_inj.mp
  · simp only [UInt8.toNat_ofNat', Nat.toUInt8_eq]
    omega
  · simp only [UInt8.toNat_ofNat', Nat.toUInt8_eq, Nat.shiftRight_eq_div_pow]
    omega

theorem short_mime64shorts (le : Bool) (n : ℕ) :
    short le (mime64shorts le n) = (char6 (n / 64), char6 (n % 64)) := by
  cases le with
  | true =>
    have bytes := toUInt8_byte (char6 (n % 64)) (char6 (n / 64))
    exact Prod.ext bytes.1 bytes.2
  | false =>
    have bytes := toUInt8_byte (char6 (n / 64)) (char6 (n % 64))
    exact Prod.ext bytes.2 bytes.1

def crlf : Short := (0x0D, 0x0A)

theorem short_crlf16 (le : Bool) : short le (crlf16 le) = crlf := by cases le <;> rfl

/-- The two units of three bytes. -/
def unitsOf (v : ℕ) : Short × Short :=
  ((char6 (v / 262144 % 64), char6 (v / 4096 % 64)), (char6 (v / 64 % 64), char6 (v % 64)))

theorem encodeGroup_units {v : ℕ} (fits : v < 2 ^ 24) (le : Bool) :
    (short le (mime64shorts le (v >>> 12)), short le (mime64shorts le (v &&& 4095))) = unitsOf v := by
  have low : v &&& 4095 = v % 4096 := Nat.and_two_pow_sub_one_eq_mod v 12
  have high : v / 4096 / 64 = v / 262144 % 64 := by omega
  have third : v % 4096 / 64 = v / 64 % 64 := by omega
  have fourth : v % 4096 % 64 = v % 64 := by omega
  rw [short_mime64shorts, short_mime64shorts, low, Nat.shiftRight_eq_div_pow, unitsOf]
  simp only [Nat.reducePow, high, third, fourth]

/-- The groups of units of a byte string. -/
def unitGroups : Bytes → List (Short × Short)
  | b :: b' :: b'' :: s => unitsOf (b.toNat * 65536 + b'.toNat * 256 + b''.toNat) :: unitGroups s
  | [b, b'] =>
    let units := unitsOf (b.toNat * 65536 + b'.toNat * 256)
    [(units.1, (units.2.1, eq))]
  | [b] => [((unitsOf (b.toNat * 65536)).1, (eq, eq))]
  | [] => []

def groupBytes (group : Short × Short) : Bytes := [group.1.1, group.1.2, group.2.1, group.2.2]

theorem groups_bits_12 (v : ℕ) : groups 6 (bits 12 v) = [v / 64 % 64, v % 64] := by
  rw [bits_add 6 6 v, groups_bits_append (by decide), ← List.append_nil (bits 6 v),
    groups_bits_append (by decide), groups_short (by decide), Nat.shiftRight_eq_div_pow]
  simp only [Nat.reducePow]

theorem groups_bits_18 (v : ℕ) : groups 6 (bits 18 v) = [v / 4096 % 64, v / 64 % 64, v % 64] := by
  rw [bits_add 6 12 v, groups_bits_append (by decide), groups_bits_12, Nat.shiftRight_eq_div_pow]
  simp only [Nat.reducePow]

theorem groups_bits_24 (v : ℕ) (l : List Bool) : groups 6 (bits 24 v ++ l) =
    v / 262144 % 64 :: v / 4096 % 64 :: v / 64 % 64 :: v % 64 :: groups 6 l := by
  rw [bits_add 6 18 v, bits_add 6 12 v, bits_add 6 6 v]
  simp only [List.append_assoc, groups_bits_append (show 0 < 6 by decide), Nat.shiftRight_eq_div_pow, Nat.reducePow]

theorem bits_two_bytes (b b' : UInt8) :
    bits 8 b.toNat ++ bits 8 b'.toNat = bits 16 (b.toNat * 256 + b'.toNat) :=
  (@bits_mul_add 8 8 b.toNat b'.toNat b'.toNat_lt).symm

theorem bits_three_bytes (b b' b'' : UInt8) : bits 8 b.toNat ++ (bits 8 b'.toNat ++ bits 8 b''.toNat) =
    bits 24 (b.toNat * 65536 + b'.toNat * 256 + b''.toNat) := by
  have sum : b.toNat * 65536 + b'.toNat * 256 + b''.toNat = (b.toNat * 256 + b'.toNat) * 2 ^ 8 + b''.toNat := by
    omega
  rw [sum, @bits_mul_add 16 8 _ b''.toNat b''.toNat_lt, ← bits_two_bytes, List.append_assoc]

theorem bitString_cons (b : UInt8) (s : Bytes) : bitString (b :: s) = bits 8 b.toNat ++ bitString s :=
  List.flatMap_cons ..

/-- The groups of units are the text. -/
theorem encoded_eq (s : Bytes) : encoded s = (unitGroups s).flatMap groupBytes := by
  induction s using unitGroups.induct with
  | case1 b b' b'' s ih =>
    have pad : padding (b :: b' :: b'' :: s).length = padding s.length := by
      simp only [padding, List.length_cons]
      omega
    rw [encoded, pad, bitString_cons, bitString_cons, bitString_cons, unitGroups, List.flatMap_cons, ← ih,
      encoded]
    simp only [← List.append_assoc]
    rw [List.append_assoc (bits 8 b.toNat), bits_three_bytes, List.append_assoc, groups_bits_24]
    rfl
  | case2 b b' =>
    have zeros : List.replicate (2 * padding [b, b'].length) false = bits 2 0 := rfl
    have whole : bitString [b, b'] ++ bits 2 0 = bits 18 ((b.toNat * 256 + b'.toNat) * 2 ^ 2 + 0) := by
      rw [@bits_mul_add 16 2 _ 0 (by decide), ← bits_two_bytes]
      rfl
    have first : ((b.toNat * 256 + b'.toNat) * 2 ^ 2 + 0) / 4096 % 64 =
        (b.toNat * 65536 + b'.toNat * 256) / 262144 % 64 := by omega
    have second : ((b.toNat * 256 + b'.toNat) * 2 ^ 2 + 0) / 64 % 64 =
        (b.toNat * 65536 + b'.toNat * 256) / 4096 % 64 := by omega
    have third : ((b.toNat * 256 + b'.toNat) * 2 ^ 2 + 0) % 64 =
        (b.toNat * 65536 + b'.toNat * 256) / 64 % 64 := by omega
    rw [encoded, zeros, whole, groups_bits_18, first, second, third]
    rfl
  | case3 b =>
    have zeros : List.replicate (2 * padding [b].length) false = bits 4 0 := rfl
    have whole : bitString [b] ++ bits 4 0 = bits 12 (b.toNat * 2 ^ 4 + 0) := by
      rw [@bits_mul_add 8 4 _ 0 (by decide)]
      rfl
    have first : (b.toNat * 2 ^ 4 + 0) / 64 % 64 = b.toNat * 65536 / 262144 % 64 := by omega
    have second : (b.toNat * 2 ^ 4 + 0) % 64 = b.toNat * 65536 / 4096 % 64 := by omega
    rw [encoded, zeros, whole, groups_bits_12, first, second]
    rfl
  | case4 =>
    rw [encoded, groups_short (by decide)]
    rfl

end Units

section Layout

/-- The units of the groups, with a line end before every group for which no room is left in its line. A line has
room for as many groups as `room` says, if it says so. -/
def laidOut : Option ℕ → List (Short × Short) → List Short
  | _, [] => []
  | none, group :: gs => group.1 :: group.2 :: laidOut none gs
  | some 0, group :: gs => crlf :: group.1 :: group.2 :: laidOut (some 18) gs
  | some (m + 1), group :: gs => group.1 :: group.2 :: laidOut (some m) gs

/-- The variable `c` stands for the room in the line. -/
def Due (c : ℤ) (k : ℕ) : Option ℕ → Prop
  | none => c = -1
  | some m => c = k + 2 * m

variable {written free : List Short} {c : ℤ}

theorem store_next (written free : List Short) (u y v : Short) :
    store (written ++ u :: y :: free) (written.length + 1) v = some (written ++ u :: v :: free) := by
  have next := store_append (written ++ [u]) free y v
  simpa only [List.length_append, List.length_singleton, List.append_assoc, List.singleton_append] using next

/-- A group behind others in its line. -/
theorem encodeGroup_inside {v : ℕ} (fits : v < 2 ^ 24) (le : Bool) (x y : Short)
    (inside : c ≠ written.length) : encodeGroup le v ⟨written ++ x :: y :: free, written.length, c⟩ =
      some ⟨written ++ (unitsOf v).1 :: (unitsOf v).2 :: free, written.length + 2, c⟩ := by
  have first := congrArg Prod.fst (encodeGroup_units fits le)
  have second := congrArg Prod.snd (encodeGroup_units fits le)
  dsimp only at first second
  simp only [encodeGroup, if_neg inside, Option.bind_eq_bind, Option.bind_some, first, second, store_append,
    store_next]

/-- A group at the start of a new line. -/
theorem encodeGroup_break {v : ℕ} (fits : v < 2 ^ 24) (le : Bool) (w x y : Short) :
    encodeGroup le v ⟨written ++ w :: x :: y :: free, written.length, written.length⟩ =
      some ⟨written ++ crlf :: (unitsOf v).1 :: (unitsOf v).2 :: free, written.length + 3,
        written.length + 1 + 38⟩ := by
  have first := congrArg Prod.fst (encodeGroup_units fits le)
  have second := congrArg Prod.snd (encodeGroup_units fits le)
  dsimp only at first second
  have one := store_next written (y :: free) crlf x (unitsOf v).1
  have two := store_next (written ++ [crlf]) free (unitsOf v).1 y (unitsOf v).2
  simp only [List.length_append, List.length_singleton, List.append_assoc, List.singleton_append] at two
  simp only [encodeGroup, if_pos, Option.bind_eq_bind, Option.bind_some, first, second, store_append,
    short_crlf16, one, two]

/-- One group, with a line end in front of it if there is no room. -/
theorem encodeGroup_laidOut {v : ℕ} (fits : v < 2 ^ 24) (le : Bool) {room : Option ℕ}
    (due : Due c written.length room) (gs : List (Short × Short))
    (enough : (laidOut room (unitsOf v :: gs)).length ≤ free.length) :
    ∃ front room' c' free', encodeGroup le v ⟨written ++ free, written.length, c⟩ =
        some ⟨(written ++ front) ++ (unitsOf v).1 :: (unitsOf v).2 :: free', (written ++ front).length + 2, c'⟩ ∧
      Due c' ((written ++ front).length + 2) room' ∧ free'.length + front.length + 2 = free.length ∧
      ∀ group, laidOut room (group :: gs) = front ++ group.1 :: group.2 :: laidOut room' gs := by
  match room, due with
  | none, due =>
    match free, enough with
    | x :: y :: free, _ =>
      refine ⟨[], none, c, free, ?_, due, rfl, fun group => rfl⟩
      have inside : c ≠ written.length := by
        rw [Due] at due
        omega
      rw [encodeGroup_inside fits le x y inside, List.append_nil]
  | some (m + 1), due =>
    match free, enough with
    | x :: y :: free, _ =>
      rw [Due] at due
      have inside : c ≠ written.length := by omega
      refine ⟨[], some m, c, free, ?_, ?_, rfl, fun group => rfl⟩
      · rw [encodeGroup_inside fits le x y inside, List.append_nil]
      · rw [Due, List.append_nil]
        push_cast
        omega
  | some 0, due =>
    match free, enough with
    | w :: x :: y :: free, _ =>
      rw [Due, Nat.cast_zero, mul_zero, add_zero] at due
      refine ⟨[crlf], some 18, written.length + 1 + 38, free, ?_, ?_, rfl, fun group => rfl⟩
      · rw [due, encodeGroup_break fits le w x y, List.append_assoc, List.length_append]
        rfl
      · rw [Due, List.length_append, List.length_singleton]
        push_cast
        omega

theorem shifted_or (b b' b'' : UInt8) : b.toNat <<< 16 ||| b'.toNat <<< 8 ||| b''.toNat =
    b.toNat * 65536 + b'.toNat * 256 + b''.toNat := by
  have b'_lt := b'.toNat_lt
  have b''_lt := b''.toNat_lt
  have front : b.toNat <<< 16 ||| b'.toNat <<< 8 = (b.toNat * 256 + b'.toNat) <<< 8 := by
    rw [← Nat.shiftLeft_add_eq_or_of_lt (by rw [Nat.shiftLeft_eq]; omega), Nat.shiftLeft_eq, Nat.shiftLeft_eq,
      Nat.shiftLeft_eq]
    omega
  rw [front, ← Nat.shiftLeft_add_eq_or_of_lt b''_lt, Nat.shiftLeft_eq]
  omega

theorem three_bytes_lt (b b' b'' : UInt8) : b.toNat * 65536 + b'.toNat * 256 + b''.toNat < 2 ^ 24 := by
  have b_lt := b.toNat_lt
  have b'_lt := b'.toNat_lt
  have b''_lt := b''.toNat_lt
  omega

theorem take_two (l free : List Short) (u v : Short) : (l ++ u :: v :: free).take (l.length + 2) = l ++ [u, v] := by
  rw [List.take_append, List.take_of_length_le (Nat.le_add_right ..), Nat.add_sub_cancel_left]
  rfl

theorem laidOut_single_length (room : Option ℕ) (group group' : Short × Short) :
    (laidOut room [group]).length = (laidOut room [group']).length := by
  match room with
  | none => rfl
  | some 0 => rfl
  | some (m + 1) => rfl

/-- The loop lays the groups out behind what is written, if there is room for them in the array. -/
theorem encodeLoop_laidOut (le : Bool) (s : Bytes) {room : Option ℕ} (due : Due c written.length room)
    (enough : (laidOut room (unitGroups s)).length ≤ free.length) :
    ∃ e, encodeLoop le s ⟨written ++ free, written.length, c⟩ = some e ∧
      e.m64arr.take e.k = written ++ laidOut room (unitGroups s) := by
  induction s using unitGroups.induct generalizing room written free c with
  | case1 b b' b'' s ih =>
    have small := three_bytes_lt b b' b''
    rw [encodeLoop, shifted_or, unitGroups]
    rw [unitGroups] at enough
    generalize b.toNat * 65536 + b'.toNat * 256 + b''.toNat = v at small enough ⊢
    obtain ⟨front, room', c', free', ran, due', length, laid⟩ :=
      encodeGroup_laidOut small le due (unitGroups s) enough
    rw [laid, List.length_append] at enough
    have step := @ih (written ++ front ++ [(unitsOf v).1, (unitsOf v).2]) free' c' room'
      (by simpa [Nat.add_assoc] using due') (by simp only [List.length_cons] at enough; omega)
    rw [ran, Option.bind_eq_bind, Option.bind_some, laid]
    simpa [Nat.add_assoc] using step
  | case2 b b' =>
    have small := three_bytes_lt b b' 0
    have shifted := shifted_or b b' 0
    rw [UInt8.toNat_zero, Nat.add_zero] at small shifted
    rw [Nat.or_zero] at shifted
    rw [encodeLoop, shifted, unitGroups]
    rw [unitGroups] at enough
    generalize b.toNat * 65536 + b'.toNat * 256 = v at small enough ⊢
    rw [laidOut_single_length room _ (unitsOf v)] at enough
    obtain ⟨front, room', c', free', ran, -, length, laid⟩ := encodeGroup_laidOut small le due [] enough
    generalize whole : written ++ front = done at ran
    have last : (done ++ (unitsOf v).1 :: (unitsOf v).2 :: free')[done.length + 1]? = some (unitsOf v).2 := by
      rw [List.getElem?_append_right (Nat.le_add_right ..), Nat.add_sub_cancel_left]
      rfl
    refine ⟨⟨done ++ (unitsOf v).1 :: ((unitsOf v).2.1, eq) :: free', done.length + 2, c'⟩, ?_, ?_⟩
    · rw [ran, Option.bind_eq_bind, Option.bind_some]
      simp only [Nat.add_succ_sub_one, last, Option.bind_eq_bind, Option.bind_some, store_next]
    · rw [take_two, laid, laidOut, ← whole, List.append_assoc]
  | case3 b =>
    have small := three_bytes_lt b 0 0
    have shifted := shifted_or b 0 0
    simp only [UInt8.toNat_zero, Nat.zero_mul, Nat.add_zero, Nat.zero_shiftLeft, Nat.or_zero] at small shifted
    rw [encodeLoop, shifted, unitGroups]
    rw [unitGroups] at enough
    generalize b.toNat * 65536 = v at small enough ⊢
    rw [laidOut_single_length room _ (unitsOf v)] at enough
    obtain ⟨front, room', c', free', ran, -, length, laid⟩ := encodeGroup_laidOut small le due [] enough
    generalize whole : written ++ front = done at ran
    have signs : short le (eq.toNat <<< 8 ||| eq.toNat) = (eq, eq) := by cases le <;> rfl
    refine ⟨⟨done ++ (unitsOf v).1 :: (eq, eq) :: free', done.length + 2, c'⟩, ?_, ?_⟩
    · rw [ran, Option.bind_eq_bind, Option.bind_some]
      simp only [Nat.add_succ_sub_one, signs, store_next, Option.bind_eq_bind, Option.bind_some]
    · rw [take_two, laid, laidOut, ← whole, List.append_assoc]
  | case4 => exact ⟨_, rfl, by rw [unitGroups, laidOut]; simp⟩

theorem unitGroups_length (s : Bytes) : (unitGroups s).length = (s.length + 2) / 3 := by
  induction s using unitGroups.induct with
  | case1 b b' b'' s ih =>
    rw [unitGroups, List.length_cons, ih]
    simp only [List.length_cons]
    omega
  | case2 b b' => rw [unitGroups, List.length_singleton, List.length_cons, List.length_singleton]
  | case3 b => rw [unitGroups, List.length_singleton, List.length_singleton]
  | case4 => rw [unitGroups, List.length_nil, List.length_nil]

theorem laidOut_none (gs : List (Short × Short)) : laidOut none gs = gs.flatMap fun group => [group.1, group.2] := by
  induction gs with
  | nil => rfl
  | cons group gs ih =>
    rw [laidOut, ih]
    rfl

theorem laidOut_none_length (gs : List (Short × Short)) : (laidOut none gs).length = 2 * gs.length := by
  induction gs with
  | nil => rfl
  | cons group gs ih => simp only [laidOut, List.length_cons, ih, Nat.mul_add, Nat.mul_one]

theorem laidOut_length_le {m : ℕ} (small : m ≤ 19) (gs : List (Short × Short)) :
    (laidOut (some m) gs).length ≤ 2 * gs.length + (gs.length + 18 - m) / 19 := by
  induction gs generalizing m with
  | nil => simp [laidOut]
  | cons group gs ih =>
    match m with
    | 0 =>
      have rest := ih (by decide : 18 ≤ 19)
      simp only [laidOut, List.length_cons]
      omega
    | m + 1 =>
      have rest := @ih m (by omega)
      simp only [laidOut, List.length_cons]
      omega

/-- The array is large enough for the groups and the line ends. -/
theorem laidOut_fits (s : Bytes) (enable_break : Bool) :
    (laidOut (if enable_break then some 19 else none) (unitGroups s)).length ≤ outlen s.length := by
  have groups := unitGroups_length s
  rw [outlen]
  cases enable_break with
  | true =>
    have length := laidOut_length_le (Nat.le_refl 19) (unitGroups s)
    simp only [if_true]
    omega
  | false =>
    have length := laidOut_none_length (unitGroups s)
    simp only [Bool.false_eq_true, if_false]
    omega

end Layout

section Lines

theorem chunks_nil {α : Type} (n : ℕ) : chunks n ([] : List α) = [] := by
  rw [chunks, if_neg fun room => room.2 rfl]

theorem chunks_cons {α : Type} {n : ℕ} (pos : 0 < n) {l : List α} (more : l ≠ []) :
    chunks n l = l.take n :: chunks n (l.drop n) := by rw [chunks, if_pos ⟨pos, more⟩]

theorem flatten_chunks {α : Type} {n : ℕ} (pos : 0 < n) (l : List α) : (chunks n l).flatten = l := by
  induction l using chunks.induct n with
  | case1 l room ih => rw [chunks, if_pos room, List.flatten_cons, ih, List.take_append_drop]
  | case2 l empty =>
    rw [chunks, if_neg empty, List.flatten_nil]
    exact (Classical.not_not.mp fun more => empty ⟨pos, more⟩).symm

def unitBytes (units : List Short) : Bytes := units.flatMap fun unit => [unit.1, unit.2]

theorem unitBytes_none (gs : List (Short × Short)) : unitBytes (laidOut none gs) = gs.flatMap groupBytes := by
  rw [laidOut_none, unitBytes, List.flatMap_assoc]
  rfl

/-- The rest of a line, and the lines that follow. -/
theorem laidOut_line (m : ℕ) (gs : List (Short × Short)) : laidOut (some m) gs =
    laidOut none (gs.take m) ++ if gs.length ≤ m then [] else crlf :: laidOut (some 19) (gs.drop m) := by
  induction gs generalizing m with
  | nil => simp [laidOut]
  | cons group gs ih =>
    match m with
    | 0 => rfl
    | m + 1 =>
      rw [laidOut, ih, List.take_succ_cons, laidOut, List.drop_succ_cons]
      simp only [List.length_cons, Nat.add_le_add_iff_right, List.cons_append]

theorem groupBytes_take (m : ℕ) (gs : List (Short × Short)) :
    (gs.flatMap groupBytes).take (4 * m) = (gs.take m).flatMap groupBytes ∧
      (gs.flatMap groupBytes).drop (4 * m) = (gs.drop m).flatMap groupBytes := by
  induction gs generalizing m with
  | nil => simp
  | cons group gs ih =>
    cases m with
    | zero => exact ⟨rfl, rfl⟩
    | succ m =>
      rw [List.flatMap_cons, List.take_succ_cons, List.drop_succ_cons, List.flatMap_cons, Nat.mul_succ,
        List.take_append, List.drop_append, Nat.add_comm (4 * m) 4]
      have length : (groupBytes group).length = 4 := rfl
      rw [length, Nat.add_sub_cancel_left, (ih m).1, (ih m).2,
        List.take_of_length_le (length.le.trans (Nat.le_add_right ..)),
        List.drop_eq_nil_of_le (length.le.trans (Nat.le_add_right ..))]
      exact ⟨rfl, rfl⟩

theorem groupBytes_ne_nil {gs : List (Short × Short)} (more : gs ≠ []) : gs.flatMap groupBytes ≠ [] := by
  cases gs with
  | nil => exact absurd rfl more
  | cons group gs => exact List.cons_ne_nil _ _

/-- The lines hold 76 characters each. -/
theorem unitBytes_line (gs : List (Short × Short)) :
    unitBytes (laidOut (some 19) gs) = wrapped (gs.flatMap groupBytes) := by
  induction length : gs.length using Nat.strong_induction_on generalizing gs with
  | _ n ih =>
    subst length
    obtain ⟨line, others⟩ := groupBytes_take 19 gs
    rw [laidOut_line, unitBytes, List.flatMap_append, ← unitBytes, unitBytes_none, ← line, wrapped]
    by_cases more : gs = []
    · subst more
      rw [List.flatMap_nil, chunks_nil]
      rfl
    rw [chunks_cons (by decide) (groupBytes_ne_nil more), others]
    split_ifs with short
    · rw [List.drop_eq_nil_of_le short, List.flatMap_nil, List.flatMap_nil, List.append_nil, chunks_nil,
        List.intercalate_singleton]
    · have rest : gs.drop 19 ≠ [] := fun none => short (List.drop_eq_nil_iff.mp none)
      have shorter : (gs.drop 19).length < gs.length := by
        rw [List.length_drop]
        omega
      have later := ih _ shorter (gs.drop 19) rfl
      rw [wrapped] at later
      rw [List.intercalate_cons_of_ne_nil, ← later, List.append_assoc]
      · rfl
      · rw [chunks_cons (by decide) (groupBytes_ne_nil rest)]
        exact List.cons_ne_nil _ _

end Lines

/-- `encode` never leaves its array. It returns the text, in lines of 76 characters if line breaks are asked for,
on a machine of either byte order. -/
theorem encode_eq (le : Bool) (str : Bytes) (enable_break : Bool) :
    encode le str enable_break = some (if enable_break then wrapped (encoded str) else encoded str) := by
  have due : Due (if enable_break then 38 else -1) ([] : List Short).length
      (if enable_break then some 19 else none) := by
    cases enable_break <;> rfl
  have room := laidOut_fits str enable_break
  rw [← List.length_replicate (n := outlen str.length) (a := ((0, 0) : Short))] at room
  obtain ⟨e, ran, laid⟩ := encodeLoop_laidOut le str due room
  rw [List.nil_append, List.length_nil] at ran
  rw [List.nil_append] at laid
  rw [encode, ran, Option.bind_eq_bind, Option.bind_some, laid, encoded_eq]
  cases enable_break with
  | true => exact congrArg some (unitBytes_line (unitGroups str))
  | false => exact congrArg some (unitBytes_none (unitGroups str))

end Encode

section RoundTrip

theorem mime64lookup_char6 {i : ℕ} (less : i < 64) : mime64lookup (char6 i) = i := by
  have all : (List.range 64).all (fun i => mime64lookup (char6 i) = i) = true := by decide +kernel
  exact of_decide_eq_true (List.all_eq_true.mp all i (List.mem_range.mpr less))

theorem sextets_map_char6 {ns : List ℕ} (small : ∀ n ∈ ns, n < 64) : sextets (ns.map char6) = ns := by
  induction ns with
  | nil => rfl
  | cons n ns ih =>
    obtain ⟨first, others⟩ := List.forall_mem_cons.mp small
    rw [sextets, List.map_cons, List.filterMap_cons, mime64lookup_char6 first, if_pos (by omega), ← sextets,
      ih others]

theorem sextets_append (s t : Bytes) : sextets (s ++ t) = sextets s ++ sextets t := List.filterMap_append

theorem sextets_signs (n : ℕ) : sextets (List.replicate n eq) = [] := by
  induction n with
  | zero => rfl
  | succ n ih =>
    have sign : sextets [eq] = [] := by decide +kernel
    rw [List.replicate_succ, ← List.singleton_append, sextets_append, sign, ih, List.append_nil]

/-- Line ends between the lines change nothing for the decoder. -/
theorem sextets_intercalate {separator : Bytes} (skipped : sextets separator = []) (lines : List Bytes) :
    sextets (separator.intercalate lines) = sextets lines.flatten := by
  induction lines with
  | nil => rfl
  | cons line lines ih =>
    rw [List.flatten_cons, sextets_append, ← ih]
    cases lines with
    | nil =>
      rw [List.intercalate_singleton, List.intercalate_nil]
      exact (List.append_nil _).symm
    | cons next lines =>
      rw [List.intercalate_cons_cons, sextets_append, sextets_append, skipped, List.append_nil]

theorem sextets_wrapped (text : Bytes) : sextets (wrapped text) = sextets text := by
  have skipped : sextets (ascii "\r\n") = [] := by decide +kernel
  rw [wrapped, sextets_intercalate skipped, flatten_chunks (by decide)]

theorem bitString_eq (s : Bytes) : bitString s = (s.map UInt8.toNat).flatMap (bits 8) := by
  rw [bitString, List.flatMap_map]

theorem bitString_length (s : Bytes) : (bitString s).length = 8 * s.length := by
  induction s with
  | nil => rfl
  | cons b s ih =>
    rw [bitString_cons, List.length_append, bits_length, ih, List.length_cons]
    omega

/-- The characters of the text stand for the bits of the byte string and zeros. -/
theorem octets_encoded (s : Bytes) : octets (sextets (encoded s)) = s := by
  have small (n : ℕ) (member : n ∈ groups 6 (bitString s ++ List.replicate (2 * padding s.length) false)) :
      n < 64 := lt_of_mem_groups member
  have whole : 6 ∣ (bitString s ++ List.replicate (2 * padding s.length) false).length := by
    rw [List.length_append, bitString_length, List.length_replicate, padding]
    omega
  have bytes : ∀ n ∈ s.map UInt8.toNat, n < 2 ^ 8 := by
    intro n member
    obtain ⟨b, -, rfl⟩ := List.mem_map.mp member
    exact b.toNat_lt
  have short : (List.replicate (2 * padding s.length) false).length < 8 := by
    rw [List.length_replicate, padding]
    omega
  rw [encoded, sextets_append, sextets_signs, List.append_nil, sextets_map_char6 small, octets,
    flatMap_bits_groups (by decide) whole, bitString_eq, groups_flatMap_bits (by decide) bytes short,
    List.map_map]
  exact (List.map_congr_left fun b _ => UInt8.ofNat_toNat).trans (List.map_id s)

/-- Decoding gives back every byte string, with and without line breaks, if it fits into the array. It does unless
the size of the array is reduced modulo 2^32. -/
theorem decode_encode (le : Bool) (s : Bytes) (enable_break : Bool) :
    ∃ text, encode le s enable_break = some text ∧
      decode text = (if s.length ≤ text.length * 3 % 2 ^ 32 / 4 then some s else none) ∧
      (text.length * 3 < 2 ^ 32 → decode text = some s) := by
  refine ⟨_, encode_eq le s enable_break, ?_⟩
  have same : sextets (if enable_break then wrapped (encoded s) else encoded s) = sextets (encoded s) := by
    cases enable_break with
    | true => exact sextets_wrapped (encoded s)
    | false => rfl
  generalize (if enable_break then wrapped (encoded s) else encoded s) = text at same ⊢
  have length := octets_length (sextets text)
  have result := decode_eq text
  rw [same, octets_encoded] at length
  rw [same, octets_encoded, ← length] at result
  refine ⟨result, fun small => ?_⟩
  have fewer : (sextets text).length ≤ text.length := List.length_filterMap_le ..
  rw [result, if_pos]
  rw [Nat.mod_eq_of_lt small, length, ← same]
  omega

end RoundTrip

end OmniaJit.Vendor.Base64
