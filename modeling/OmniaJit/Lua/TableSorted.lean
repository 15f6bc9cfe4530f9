import Mathlib.Algebra.Group.Nat.Defs
import OmniaJit.Lua.TableSort

/-! # What `table.sort` does

Whatever the order function answers, the values from 1 to the length are only rearranged, nothing else of the
table is touched or compared, and the C stack grows with the logarithm of the length. The result is sorted for
every weak order that the answers agree with; the error "invalid order function" comes up only if there is none.
-/

namespace OmniaJit.Lua.LibTable

open OmniaJit.Machine OmniaJit.Machine.Program OmniaJit.Data

variable {α σ ε : Type} {lt : OrderFunction α σ ε} {S : Set (Option α)}

/-- A strict weak order of the values in `S`: values neither of which comes before the other are in one class. -/
structure WeakOrder (S : Set (Option α)) (r : Option α → Option α → Prop) : Prop where
  asymm : ∀ x ∈ S, ∀ y ∈ S, r x y → ¬r y x
  trans : ∀ x ∈ S, ∀ y ∈ S, ∀ z ∈ S, ¬r y x → ¬r z y → ¬r z x

/-- All answers on values in `S` are right for the order. -/
def Agrees (lt : OrderFunction α σ ε) (S : Set (Option α)) (r : Option α → Option α → Prop) : Prop :=
  ∀ x ∈ S, ∀ y ∈ S, ∀ answer s s', lt x y s = (.ok answer, s') → (answer = true ↔ r x y)

/-- `x` comes before `y`, in every order that the answers agree with. -/
def Before (lt : OrderFunction α σ ε) (S : Set (Option α)) (x y : Option α) : Prop :=
  ∀ r, WeakOrder S r → Agrees lt S r → r x y

/-- `y` does not come before `x`, in every such order. -/
def AtMost (lt : OrderFunction α σ ε) (S : Set (Option α)) (x y : Option α) : Prop :=
  ∀ r, WeakOrder S r → Agrees lt S r → ¬r y x

/-- There is no such order. -/
def Unordered (lt : OrderFunction α σ ε) (S : Set (Option α)) : Prop := ∀ r, WeakOrder S r → ¬Agrees lt S r

section Orders

variable {x y z : Option α}

theorem AtMost.refl (inside : x ∈ S) : AtMost lt S x x :=
  fun _ order _ before => order.asymm x inside x inside before before

theorem AtMost.trans (mx : x ∈ S) (my : y ∈ S) (mz : z ∈ S) (first : AtMost lt S x y) (second : AtMost lt S y z) :
    AtMost lt S x z :=
  fun r order agrees => order.trans x mx y my z mz (first r order agrees) (second r order agrees)

theorem Before.atMost (mx : x ∈ S) (my : y ∈ S) (before : Before lt S x y) : AtMost lt S x y :=
  fun r order agrees => order.asymm x mx y my (before r order agrees)

theorem Before.unordered (before : Before lt S x y) (atMost : AtMost lt S y x) : Unordered lt S :=
  fun r order agrees => atMost r order agrees (before r order agrees)

theorem Unordered.atMost (unordered : Unordered lt S) (x y : Option α) : AtMost lt S x y :=
  fun r order agrees => absurd agrees (unordered r order)

end Orders

/-- The ways in which a sort of values in `S` can fail. -/
def Fails (lt : OrderFunction α σ ε) (S : Set (Option α)) : SortError ε → Prop
  | .raised e => ∃ x ∈ S, ∃ y ∈ S, ∃ s s', lt x y s = (.error e, s')
  | .invalidOrder => Unordered lt S
  | .stack => False
  | .endless => False

/-- All values of a stretch are in `S`. -/
def Within (S : Set (Option α)) (l u : ℤ) (t : Table α) : Prop := ∀ k, l ≤ k → k ≤ u → t.get k ∈ S

section Parts

variable {s : SortState α σ} {l u i j : ℤ} {P : Option α}

theorem sort_comp_ensures {x y : Option α} (mx : x ∈ S) (my : y ∈ S) :
    Ensures (sort_comp lt x y) s
      (fun answer s' => s'.t = s.t ∧ if answer = true then Before lt S x y else AtMost lt S y x)
      (fun e s' => s'.t = s.t ∧ Fails lt S e) := by
  cases asked : lt x y s.rest with
  | mk answer rest =>
    cases answer with
    | error e =>
      simp only [Ensures, sort_comp, asked]
      exact ⟨trivial, x, mx, y, my, _, _, asked⟩
    | ok answer =>
      simp only [Ensures, sort_comp, asked, true_and]
      cases answer with
      | true => exact fun r _ agrees => (agrees x mx y my true _ _ asked).mp rfl
      | false => exact fun r _ agrees before => Bool.false_ne_true ((agrees x mx y my false _ _ asked).mpr before)

theorem get_set2 (t : Table α) (i j : ℤ) :
    ((t.set i (t.get j)).set j (t.get i)).get = swapped t.get i j := by
  funext k
  rw [Table.get_set, Table.get_set, swapped]

/-- Two values are in order afterwards. -/
theorem sortPair_ensures (mi : s.t.get i ∈ S) (mj : s.t.get j ∈ S) (first : l ≤ i) (between : i < j)
    (last : j ≤ u) : Ensures (sortPair lt i j) s
      (fun moved s' => s'.t.get = (if moved = true then swapped s.t.get i j else s.t.get) ∧
        AtMost lt S (s'.t.get i) (s'.t.get j) ∧ Rearranged l u s.t.get s'.t.get)
      (fun e s' => Rearranged l u s.t.get s'.t.get ∧ Fails lt S e) := by
  refine (ensures_bind _ _).mpr ((ensures_bind _ _).mpr ((ensures_bind _ _).mpr ?_))
  refine (sort_comp_ensures mj mi).mono (fun answer s' => ?_) (fun e s' => ?_)
  · rintro ⟨same, said⟩
    cases answer with
    | true =>
      have moved : ((s'.t.set i (s.t.get j)).set j (s.t.get i)).get = swapped s.t.get i j := by
        rw [same, get_set2]
      refine ⟨moved, ?_, moved ▸ .swap _ ⟨first, by omega⟩ ⟨by omega, last⟩⟩
      change AtMost lt S (((s'.t.set i (s.t.get j)).set j (s.t.get i)).get i) _
      rw [moved, swapped_left, swapped_right]
      exact Before.atMost mj mi said
    | false =>
      refine ⟨congrArg Table.get same, ?_, ?_⟩
      · rw [same]
        exact said
      · rw [same]
        exact .refl ..
  · rintro ⟨same, fails⟩
    exact ⟨same ▸ .refl .., fails⟩

/-- The value in the middle is between the two at the ends. -/
theorem sortMiddle_ensures (within : ∀ k, l ≤ k → k ≤ u → s.t.get k ∈ S) (left : l < i) (right : i < u)
    (ends : AtMost lt S (s.t.get l) (s.t.get u)) : Ensures (sortMiddle lt l i u) s
      (fun _ s' => AtMost lt S (s'.t.get l) (s'.t.get i) ∧ AtMost lt S (s'.t.get i) (s'.t.get u) ∧
        Rearranged l u s.t.get s'.t.get)
      (fun e s' => Rearranged l u s.t.get s'.t.get ∧ Fails lt S e) := by
  have ml := within l le_rfl (by omega)
  have mi := within i (by omega) (by omega)
  refine (ensures_bind _ _).mpr ((sortPair_ensures ml mi le_rfl left right.le).mono ?_ fun e s' => id)
  rintro moved s₁ ⟨same, low, rearranged⟩
  cases moved with
  | true =>
    refine ⟨low, ?_, rearranged⟩
    rw [same, if_pos rfl, swapped_right, swapped_of_ne _ (by omega) (by omega)]
    exact ends
  | false =>
    have still : s₁.t.get = s.t.get := same
    have mi' : s₁.t.get i ∈ S := still ▸ mi
    have mu : s₁.t.get u ∈ S := still ▸ within u (by omega) le_rfl
    refine (ensures_bind _ _).mpr ((sortPair_ensures mi' mu left.le right le_rfl).mono ?_ ?_)
    · rintro moved s₂ ⟨same', high, rearranged'⟩
      refine ⟨?_, high, rearranged.trans rearranged'⟩
      cases moved with
      | true =>
        rw [same', if_pos rfl, swapped_left, swapped_of_ne _ (by omega) (by omega), still]
        exact ends
      | false =>
        have still' : s₂.t.get = s₁.t.get := same'
        rw [still']
        exact low
    · rintro e s₂ ⟨rearranged', fails⟩
      exact ⟨rearranged.trans rearranged', fails⟩

theorem scanUp_ensures (within : ∀ k, l ≤ k → k ≤ u → s.t.get k ∈ S) (pivot : P ∈ S)
    (ends : AtMost lt S P (s.t.get u)) {k : ℕ} (start : l ≤ i) (more : i < u) (fuel : u - i ≤ k) :
    Ensures (scanUp lt u P k i) s
      (fun i' s' => s'.t = s.t ∧ i < i' ∧ i' ≤ u ∧ (∀ k, i < k → k < i' → Before lt S (s.t.get k) P) ∧
        AtMost lt S P (s.t.get i'))
      (fun e s' => s'.t = s.t ∧ Fails lt S e) := by
  induction k generalizing i s with
  | zero => omega
  | succ k ih =>
    have inside := within (i + 1) (by omega) (by omega)
    refine (ensures_bind _ _).mpr ((ensures_bind _ _).mpr ?_)
    refine (sort_comp_ensures inside pivot).mono ?_ fun e s' => id
    rintro answer s' ⟨same, said⟩
    cases answer with
    | false =>
      exact ⟨same, by omega, by omega, fun k _ _ => by omega, said⟩
    | true =>
      rw [if_pos rfl]
      refine (ensures_ite ..).mpr ⟨fun last => ?_, fun before => ?_⟩
      · have at_end : i + 1 = u := by omega
        refine ⟨same, Before.unordered said ?_⟩
        rw [at_end]
        exact ends
      · refine (ih (s := s') (same ▸ within) (same ▸ ends) (by omega) (by omega) (by omega)).mono ?_ ?_
        · rintro i' s'' ⟨same', more', inside', passed, stop⟩
          refine ⟨same'.trans same, by omega, inside', fun k first last => ?_, same ▸ stop⟩
          rcases eq_or_ne k (i + 1) with rfl | later
          · exact said
          · rw [← same]
            exact passed k (by omega) last
        · rintro e s'' ⟨same', fails⟩
          exact ⟨same'.trans same, fails⟩

theorem scanDown_ensures (within : ∀ k, l ≤ k → k ≤ u → s.t.get k ∈ S) (pivot : P ∈ S)
    (ends : AtMost lt S (s.t.get l) P) {k : ℕ} (start : j ≤ u) (more : l < j) (fuel : j - l ≤ k) :
    Ensures (scanDown lt l P k j) s
      (fun j' s' => s'.t = s.t ∧ l ≤ j' ∧ j' < j ∧ (∀ k, j' < k → k < j → Before lt S P (s.t.get k)) ∧
        AtMost lt S (s.t.get j') P)
      (fun e s' => s'.t = s.t ∧ Fails lt S e) := by
  induction k generalizing j s with
  | zero => omega
  | succ k ih =>
    have inside := within (j - 1) (by omega) (by omega)
    refine (ensures_bind _ _).mpr ((ensures_bind _ _).mpr ?_)
    refine (sort_comp_ensures pivot inside).mono ?_ fun e s' => id
    rintro answer s' ⟨same, said⟩
    cases answer with
    | false =>
      exact ⟨same, by omega, by omega, fun k _ _ => by omega, said⟩
    | true =>
      rw [if_pos rfl]
      refine (ensures_ite ..).mpr ⟨fun last => ?_, fun before => ?_⟩
      · have at_end : j - 1 = l := by omega
        refine ⟨same, Before.unordered said ?_⟩
        rw [at_end]
        exact ends
      · refine (ih (s := s') (same ▸ within) (same ▸ ends) (by omega) (by omega) (by omega)).mono ?_ ?_
        · rintro j' s'' ⟨same', inside', more', passed, stop⟩
          refine ⟨same'.trans same, inside', by omega, fun k first last => ?_, same ▸ stop⟩
          rcases eq_or_ne k (j - 1) with rfl | later
          · exact said
          · rw [← same]
            exact passed k first (by omega)
        · rintro e s'' ⟨same', fails⟩
          exact ⟨same'.trans same, fails⟩

/-- What is known about the table while it is split at `P`. -/
structure Split (lt : OrderFunction α σ ε) (S : Set (Option α)) (l u : ℤ) (P : Option α) (i j : ℤ)
    (f : ℤ → Option α) : Prop where
  within : ∀ k, l ≤ k → k ≤ u → f k ∈ S
  pivot : f (u - 1) = P
  low : ∀ k, l ≤ k → k ≤ i → AtMost lt S (f k) P
  high : ∀ k, j ≤ k → k ≤ u → AtMost lt S P (f k)

theorem Split.member (split : Split lt S l u P i j s.t.get) (wide : l < u) : P ∈ S :=
  split.pivot ▸ split.within (u - 1) (by omega) (by omega)

theorem partition_ensures {k : ℕ} (split : Split lt S l u P i j s.t.get) (start : l ≤ i) (order : i ≤ j)
    (first : l < j) (last : j < u)
    (inner : i < u - 1) (fuel : j - i < k) : Ensures (partition lt l u P k i j) s
      (fun i' s' => l < i' ∧ i' ≤ u ∧ (i' = u → Unordered lt S) ∧ Split lt S l u P (i' - 1) i' s'.t.get ∧
        Rearranged l u s.t.get s'.t.get)
      (fun e s' => Rearranged l u s.t.get s'.t.get ∧ Fails lt S e) := by
  induction k generalizing i j s with
  | zero => omega
  | succ k ih =>
    have pivot := split.member (by omega)
    refine (ensures_bind _ _).mpr ((scanUp_ensures split.within pivot (split.high u (by omega) le_rfl) start
      (by omega) (by omega)).mono ?_ ?_)
    swap
    · rintro e s₁ ⟨same, fails⟩
      exact ⟨same ▸ .refl .., fails⟩
    rintro i' s₁ ⟨same₁, up, up_last, up_passed, up_stop⟩
    refine (ensures_bind _ _).mpr ((scanDown_ensures (same₁ ▸ split.within) pivot
      (same₁ ▸ split.low l le_rfl start) (by omega) first (by omega)).mono ?_ ?_)
    swap
    · rintro e s₂ ⟨same₂, fails⟩
      exact ⟨same₂.trans same₁ ▸ .refl .., fails⟩
    rintro j' s₂ ⟨same₂, down_first, down, down_passed, down_stop⟩
    rw [same₁] at same₂ down_passed down_stop
    have low (k : ℤ) (below : l ≤ k) (above : k < i') : AtMost lt S (s.t.get k) P := by
      rcases le_or_gt k i with old | new
      · exact split.low k below old
      · exact (up_passed k new above).atMost (split.within k below (by omega)) pivot
    have high (k : ℤ) (below : j' < k) (above : k ≤ u) : AtMost lt S P (s.t.get k) := by
      rcases lt_or_ge k j with new | old
      · exact (down_passed k below new).atMost pivot (split.within k (by omega) above)
      · exact split.high k old above
    refine (ensures_ite ..).mpr ⟨fun crossed => ?_, fun apart => ?_⟩
    · refine ⟨by omega, up_last, fun at_end => ?_, ?_, same₂ ▸ .refl ..⟩
      · have itself := up_passed (u - 1) (by omega) (by omega)
        rw [split.pivot] at itself
        exact itself.unordered (.refl pivot)
      · rw [same₂]
        refine ⟨split.within, split.pivot, fun k below above => low k below (by omega), fun k below above => ?_⟩
        rcases eq_or_ne k i' with rfl | behind
        · exact up_stop
        · exact high k (by omega) above
    · have moved : (((s₂.t.set i' (s₂.t.get j')).set j' (s₂.t.get i'))).get = swapped s.t.get i' j' := by
        rw [same₂, get_set2]
      have exchanged : Rearranged l u s.t.get (swapped s.t.get i' j') :=
        .swap _ ⟨by omega, by omega⟩ ⟨by omega, by omega⟩
      refine (ensures_bind _ _).mpr ((ensures_bind _ _).mpr ((ensures_bind _ _).mpr ?_))
      refine (ih (s := { s₂ with t := (s₂.t.set i' (s₂.t.get j')).set j' (s₂.t.get i') }) ?_
        (by omega) (by omega) (by omega)
        (by omega) (by omega) (by omega)).mono ?_ ?_
      · change Split lt S l u P i' j' ((s₂.t.set i' (s₂.t.get j')).set j' (s₂.t.get i')).get
        rw [moved]
        refine ⟨exchanged.forall_of split.within, ?_, fun k below above => ?_, fun k below above => ?_⟩
        · rw [swapped_of_ne _ (by omega) (by omega)]
          exact split.pivot
        · rcases eq_or_ne k i' with rfl | other
          · rw [swapped_left]
            exact down_stop
          · rw [swapped_of_ne _ other (by omega)]
            exact low k below (by omega)
        · rcases eq_or_ne k j' with rfl | other
          · rw [swapped_right]
            exact up_stop
          · rw [swapped_of_ne _ (by omega) other]
            exact high k (by omega) above
      · rintro i'' s₃ ⟨inside, inside', unordered, split', rearranged⟩
        have again : Rearranged l u (swapped s.t.get i' j') s₃.t.get := moved ▸ rearranged
        exact ⟨inside, inside', unordered, split', exchanged.trans again⟩
      · rintro e s₃ ⟨rearranged, fails⟩
        have again : Rearranged l u (swapped s.t.get i' j') s₃.t.get := moved ▸ rearranged
        exact ⟨exchanged.trans again, fails⟩

end Parts

section Whole

variable {l u i : ℤ}

/-- The stretch from `l` to `u` gets sorted. -/
def Sorts (lt : OrderFunction α σ ε) (S : Set (Option α)) (program : SortM α σ ε Unit) (l u : ℤ)
    (s : SortState α σ) : Prop :=
  (∀ k, l ≤ k → k ≤ u → s.t.get k ∈ S) → Ensures program s
    (fun _ s' => Rearranged l u s.t.get s'.t.get ∧ Sorted (AtMost lt S) l u s'.t.get)
    (fun e s' => Rearranged l u s.t.get s'.t.get ∧ Fails lt S e)

/-- A table that is split at `i`, with the value to split at in its place. -/
structure Halves (lt : OrderFunction α σ ε) (S : Set (Option α)) (l u i : ℤ) (f : ℤ → Option α) : Prop where
  within : ∀ k, l ≤ k → k ≤ u → f k ∈ S
  low : ∀ k, l ≤ k → k ≤ i - 1 → AtMost lt S (f k) (f i)
  high : ∀ k, i + 1 ≤ k → k ≤ u → AtMost lt S (f i) (f k)

theorem Halves.sorted {f : ℤ → Option α} (halves : Halves lt S l u i f) (inside : l ≤ i ∧ i ≤ u)
    (front : Sorted (AtMost lt S) l (i - 1) f) (back : Sorted (AtMost lt S) (i + 1) u f) :
    Sorted (AtMost lt S) l u f := by
  refine front.join inside halves.low halves.high back fun p q _ _ _ _ => ?_
  exact AtMost.trans (halves.within p (by omega) (by omega)) (halves.within i inside.1 inside.2)
    (halves.within q (by omega) (by omega))

theorem Halves.rearrange_front {f g : ℤ → Option α} (halves : Halves lt S l u i f) (inside : l ≤ i ∧ i ≤ u)
    (rearranged : Rearranged l (i - 1) f g) : Halves lt S l u i g := by
  have pivot : g i = f i := rearranged.outside (by omega)
  refine ⟨(rearranged.widen le_rfl (by omega)).forall_of halves.within, ?_, fun k first last => ?_⟩
  · rw [pivot]
    exact rearranged.forall_of (p := fun x => AtMost lt S x (f i)) halves.low
  · rw [pivot, rearranged.outside (by omega)]
    exact halves.high k first last

theorem Halves.rearrange_back {f g : ℤ → Option α} (halves : Halves lt S l u i f) (inside : l ≤ i ∧ i ≤ u)
    (rearranged : Rearranged (i + 1) u f g) : Halves lt S l u i g := by
  have pivot : g i = f i := rearranged.outside (by omega)
  refine ⟨(rearranged.widen (by omega) le_rfl).forall_of halves.within, fun k first last => ?_, ?_⟩
  · rw [pivot, rearranged.outside (by omega)]
    exact halves.low k first last
  · rw [pivot]
    exact rearranged.forall_of halves.high

/-- The value to split at moves to its place. -/
theorem Split.halves {P : Option α} {f : ℤ → Option α} (split : Split lt S l u P (i - 1) i f)
    (inside : l < i) (inside' : i ≤ u) (at_end : i = u → Unordered lt S) (wide : l ≤ u - 1) :
    Halves lt S l u i (swapped f (u - 1) i) := by
  have pivot : swapped f (u - 1) i i = P := (swapped_right ..).trans split.pivot
  refine ⟨(Rearranged.swap f ⟨wide, by omega⟩ ⟨by omega, by omega⟩).forall_of split.within,
    fun k first last => ?_, fun k first last => ?_⟩
  · rw [pivot]
    rcases eq_or_ne k (u - 1) with rfl | other
    · exact (at_end (by omega)).atMost _ _
    · rw [swapped_of_ne _ other (by omega)]
      exact split.low k first last
  · rw [pivot]
    rcases eq_or_ne k (u - 1) with rfl | other
    · rw [swapped_left]
      exact split.high i le_rfl (by omega)
    · rw [swapped_of_ne _ other (by omega)]
      exact split.high k (by omega) last

/-- The median of three is put behind the stretch that is split. -/
theorem split_start {f : ℤ → Option α} (within : ∀ k, l ≤ k → k ≤ u → f k ∈ S) (below : AtMost lt S (f l) (f i))
    (above : AtMost lt S (f i) (f u)) (left : l < i) (right : i < u - 1) :
    Split lt S l u (f i) l (u - 1) (swapped f i (u - 1)) := by
  refine ⟨(Rearranged.swap f (by omega) (by omega)).forall_of within, swapped_right .., fun k first last => ?_,
    fun k first last => ?_⟩
  · rw [show k = l by omega, swapped_of_ne _ (by omega) (by omega)]
    exact below
  · rcases eq_or_ne k (u - 1) with rfl | other
    · rw [swapped_right]
      exact .refl (within i (by omega) (by omega))
    · rw [swapped_of_ne _ (by omega) other, show k = u by omega]
      exact above

theorem auxsortLoop_sorts {auxsort : ℤ → ℤ → SortM α σ ε Unit} {m : ℤ} {k : ℕ}
    (recursive : ∀ l u s, 3 < m → l ≤ u + 1 → 2 * (u - l + 1) < m → Sorts lt S (auxsort l u) l u s)
    (size : u - l + 1 ≤ m) (low : l ≤ u + 1) (fuel : u - l + 1 < k) (s : SortState α σ) :
    Sorts lt S (auxsortLoop lt auxsort k l u) l u s := by
  induction k generalizing l u s with
  | zero => omega
  | succ k ih =>
    intro within
    refine (ensures_ite ..).mpr ⟨fun wide => ?_, fun short => ?_⟩
    swap
    · exact ⟨.refl .., sorted_of_le (by omega)⟩
    refine (ensures_bind _ _).mpr ((sortPair_ensures (within l le_rfl wide.le) (within u wide.le le_rfl) le_rfl wide
      le_rfl).mono ?_ fun e s₁ => id)
    rintro - s₁ ⟨-, ends, rearranged₁⟩
    refine (ensures_ite ..).mpr ⟨fun two => ?_, fun more => ?_⟩
    · refine ⟨rearranged₁, fun p q first between last => ?_⟩
      rw [show p = l by omega, show q = u by omega]
      exact ends
    refine (ensures_bind _ _).mpr ((sortMiddle_ensures (rearranged₁.forall_of within) (by omega) (by omega)
      ends).mono ?_ ?_)
    swap
    · rintro e s₂ ⟨rearranged₂, fails⟩
      exact ⟨rearranged₁.trans rearranged₂, fails⟩
    rintro - s₂ ⟨below, above, rearranged₂⟩
    have rearranged := rearranged₁.trans rearranged₂
    have within₂ := rearranged.forall_of within
    refine (ensures_ite ..).mpr ⟨fun three => ?_, fun more' => ?_⟩
    · have halves : Halves lt S l u ((l + u) / 2) s₂.t.get := by
        refine ⟨within₂, fun k first last => ?_, fun k first last => ?_⟩
        · rw [show k = l by omega]
          exact below
        · rw [show k = u by omega]
          exact above
      exact ⟨rearranged, halves.sorted (by omega) (sorted_of_le (by omega)) (sorted_of_le (by omega))⟩
    have moved : ((s₂.t.set ((l + u) / 2) (s₂.t.get (u - 1))).set (u - 1) (s₂.t.get ((l + u) / 2))).get =
        swapped s₂.t.get ((l + u) / 2) (u - 1) := get_set2 ..
    have split := split_start within₂ below above (by omega) (by omega)
    have rearranged₃ : Rearranged l u s.t.get (swapped s₂.t.get ((l + u) / 2) (u - 1)) :=
      rearranged.trans (.swap _ (by omega) (by omega))
    rw [← moved] at split rearranged₃
    refine (ensures_bind _ _).mpr ((ensures_bind _ _).mpr ((ensures_bind _ _).mpr ((ensures_bind _ _).mpr
      ((partition_ensures (s := ⟨_, s₂.rest⟩) split le_rfl (by omega) (by omega) (by omega) (by omega)
        (by omega)).mono ?_ ?_))))
    swap
    · rintro e s₄ ⟨rearranged₄, fails⟩
      exact ⟨rearranged₃.trans rearranged₄, fails⟩
    rintro i s₄ ⟨inside, inside', at_end, split', rearranged₄⟩
    have placed : ((s₄.t.set (u - 1) (s₄.t.get i)).set i (s₄.t.get (u - 1))).get = swapped s₄.t.get (u - 1) i :=
      get_set2 ..
    have halves := split'.halves inside inside' at_end (by omega)
    have rearranged₅ : Rearranged l u s.t.get (swapped s₄.t.get (u - 1) i) :=
      (rearranged₃.trans rearranged₄).trans (.swap _ (by omega) (by omega))
    rw [← placed] at halves rearranged₅
    refine (ensures_bind _ _).mpr ((ensures_bind _ _).mpr ((ensures_bind _ _).mpr ?_))
    refine (ensures_ite ..).mpr ⟨fun smaller => ?_, fun smaller => ?_⟩
    · refine (ensures_bind _ _).mpr ((recursive l (i - 1) ⟨_, s₄.rest⟩ (by omega) (by omega)
        (by omega) fun k first last =>
        halves.within k first (by omega)).mono ?_ ?_)
      · rintro - s₆ ⟨rearranged₆, front⟩
        have halves₆ := halves.rearrange_front (by omega) rearranged₆
        have so_far := rearranged₅.trans (rearranged₆.widen le_rfl (by omega))
        refine (ih (by omega) (by omega) (by omega) s₆ fun k first last =>
          halves₆.within k (by omega) last).mono ?_ ?_
        · rintro - s₇ ⟨rearranged₇, back⟩
          refine ⟨so_far.trans (rearranged₇.widen (by omega) le_rfl),
            (halves₆.rearrange_back (by omega) rearranged₇).sorted (by omega) ?_ back⟩
          exact front.congr fun k first last => rearranged₇.outside (by omega)
        · rintro e s₇ ⟨rearranged₇, fails⟩
          exact ⟨so_far.trans (rearranged₇.widen (by omega) le_rfl), fails⟩
      · rintro e s₆ ⟨rearranged₆, fails⟩
        exact ⟨rearranged₅.trans (rearranged₆.widen le_rfl (by omega)), fails⟩
    · refine (ensures_bind _ _).mpr ((recursive (i + 1) u ⟨_, s₄.rest⟩ (by omega) (by omega)
        (by omega) fun k first last =>
        halves.within k (by omega) last).mono ?_ ?_)
      · rintro - s₆ ⟨rearranged₆, back⟩
        have halves₆ := halves.rearrange_back (by omega) rearranged₆
        have so_far := rearranged₅.trans (rearranged₆.widen (by omega) le_rfl)
        refine (ih (by omega) (by omega) (by omega) s₆ fun k first last =>
          halves₆.within k first (by omega)).mono ?_ ?_
        · rintro - s₇ ⟨rearranged₇, front⟩
          refine ⟨so_far.trans (rearranged₇.widen le_rfl (by omega)),
            (halves₆.rearrange_front (by omega) rearranged₇).sorted (by omega) front ?_⟩
          exact back.congr fun k first last => rearranged₇.outside (by omega)
        · rintro e s₇ ⟨rearranged₇, fails⟩
          exact ⟨so_far.trans (rearranged₇.widen le_rfl (by omega)), fails⟩
      · rintro e s₆ ⟨rearranged₆, fails⟩
        exact ⟨rearranged₅.trans (rearranged₆.widen (by omega) le_rfl), fails⟩

/-- Each call deeper has less than half as much to sort. -/
theorem auxsort_sorts (depth : ℕ) (s : SortState α σ) (low : l ≤ u + 1)
    (size : (u - l + 1).toNat < 2 ^ (depth + 1)) : Sorts lt S (auxsort lt (depth + 1) l u) l u s := by
  induction depth generalizing l u s with
  | zero =>
    exact auxsortLoop_sorts (fun l u s more => by omega) le_rfl low (by omega) s
  | succ depth ih =>
    have double : 2 ^ (depth + 1 + 1) = 2 * 2 ^ (depth + 1) := Nat.pow_succ'
    exact auxsortLoop_sorts (fun l u s _ low short => ih s low (by omega)) le_rfl low (by omega) s

end Whole

/-- The values from 1 to `n`. -/
def valuesTo (t : Table α) (n : ℕ) : Set (Option α) := { x | ∃ k : ℤ, 1 ≤ k ∧ k ≤ n ∧ t.get k = x }

/-- A sort rearranges the values from 1 to the length, also if it fails, and touches nothing else. It fails only
with an error that the order function raises for two of these values, or with "invalid order function", and then
no weak order of these values agrees with the answers. Otherwise the values are sorted for every weak order that
agrees with them. -/
theorem sort_ensures (op : LengthOperator α) (s : SortState α σ) :
    Ensures (sort lt op) s
      (fun _ s' => Rearranged 1 (op.len s.t) s.t.get s'.t.get ∧
        ∀ r, WeakOrder (valuesTo s.t (op.len s.t)) r → Agrees lt (valuesTo s.t (op.len s.t)) r →
          Sorted (fun x y => ¬r y x) 1 (op.len s.t) s'.t.get)
      (fun e s' => Rearranged 1 (op.len s.t) s.t.get s'.t.get ∧ Fails lt (valuesTo s.t (op.len s.t)) e) := by
  have size : ((op.len s.t : ℤ) - 1 + 1).toNat < 2 ^ ((op.len s.t).log2 + 1) := by
    rw [Int.sub_add_cancel, Int.toNat_natCast]
    exact Nat.lt_log2_self
  refine (ensures_bind _ _).mpr ((auxsort_sorts (S := valuesTo s.t (op.len s.t)) _ s (by omega) size
    fun k first last => ⟨k, first, last, rfl⟩).mono ?_ fun e s' => id)
  rintro - s' ⟨rearranged, sorted⟩
  exact ⟨rearranged, fun r order agrees p q first between last => sorted p q first between last r order agrees⟩

end OmniaJit.Lua.LibTable
