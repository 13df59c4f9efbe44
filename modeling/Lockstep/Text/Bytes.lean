set_option autoImplicit false

/-!
Byte lengths of character lists, and cuts at byte offsets. A cut exists only where a character
ends, so the two sides of a cut always join to the text that was cut.
-/

namespace Lockstep.Bytes

def length : List Char → Nat
  | [] => 0
  | c :: cs => c.utf8Size + length cs

def split? : Nat → List Char → Option (List Char × List Char)
  | 0, cs => some ([], cs)
  | _ + 1, [] => none
  | n + 1, c :: cs =>
    if c.utf8Size ≤ n + 1 then
      (split? (n + 1 - c.utf8Size) cs).map fun (front, back) => (c :: front, back)
    else none

def take? (n : Nat) (cs : List Char) : Option (List Char) :=
  (split? n cs).map Prod.fst

def drop? : Nat → List Char → Option (List Char)
  | 0, cs => some cs
  | _ + 1, [] => none
  | n + 1, c :: cs => if c.utf8Size ≤ n + 1 then drop? (n + 1 - c.utf8Size) cs else none

def slice? (start stop : Nat) (cs : List Char) : Option (List Char) :=
  (drop? start cs).bind (take? (stop - start))

@[simp] theorem length_append (xs ys : List Char) :
    length (xs ++ ys) = length xs + length ys := by
  induction xs with
  | nil => simp [length]
  | cons c xs ih => simp [length, ih, Nat.add_assoc]

theorem length_pos {cs : List Char} (h : cs ≠ []) : 0 < length cs := by
  cases cs with
  | nil => exact absurd rfl h
  | cons c cs => have := c.utf8Size_pos; simp only [length]; omega

theorem drop?_eq_split? (n : Nat) (cs : List Char) : drop? n cs = (split? n cs).map Prod.snd := by
  induction cs generalizing n with
  | nil => cases n <;> rfl
  | cons c cs ih =>
    cases n with
    | zero => rfl
    | succ n =>
      simp only [drop?, split?]
      split
      · simp [ih, Function.comp_def]
      · rfl

theorem append_of_split? {n : Nat} {cs front back : List Char}
    (h : split? n cs = some (front, back)) : front ++ back = cs ∧ length front = n := by
  induction cs generalizing n front with
  | nil =>
    cases n with
    | zero =>
      simp only [split?, Option.some.injEq, Prod.mk.injEq] at h
      obtain ⟨rfl, rfl⟩ := h
      exact ⟨rfl, rfl⟩
    | succ n => simp [split?] at h
  | cons c cs ih =>
    cases n with
    | zero =>
      simp only [split?, Option.some.injEq, Prod.mk.injEq] at h
      obtain ⟨rfl, rfl⟩ := h
      exact ⟨rfl, rfl⟩
    | succ n =>
      simp only [split?] at h
      split at h
      · rename_i fits
        obtain ⟨⟨front', back'⟩, cut, same⟩ := Option.map_eq_some_iff.1 h
        simp only [Prod.mk.injEq] at same
        obtain ⟨rfl, rfl⟩ := same
        obtain ⟨joined, size⟩ := ih cut
        exact ⟨by simp [joined], by simp only [length, size]; omega⟩
      · cases h

end Lockstep.Bytes
