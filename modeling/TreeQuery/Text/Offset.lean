/-! # Byte offsets — places and slices of a text

Positions in a text are counted in bytes of its UTF-8 form, so a character is one to four
positions wide. A slice is taken by two offsets and exists only if both stand between characters
and in order.
-/

namespace TreeQuery.Text

/-- The number of bytes of the UTF-8 form of a text. -/
def byteLength : List Char → Nat
  | [] => 0
  | c :: cs => c.utf8Size + byteLength cs

@[simp] theorem byteLength_nil : byteLength [] = 0 := rfl

@[simp] theorem byteLength_cons (c : Char) (cs : List Char) :
    byteLength (c :: cs) = c.utf8Size + byteLength cs := rfl

@[simp] theorem byteLength_append (cs ds : List Char) :
    byteLength (cs ++ ds) = byteLength cs + byteLength ds := by
  induction cs with
  | nil => simp
  | cons c cs ih => simp [ih, Nat.add_assoc]

theorem eq_nil_of_byteLength_eq_zero {cs : List Char} (h : byteLength cs = 0) : cs = [] := by
  cases cs with
  | nil => rfl
  | cons c cs =>
    have hc := c.utf8Size_pos
    rw [byteLength_cons] at h
    omega

/-! ### Cutting at an offset -/

/-- What follows the first `n` bytes, if a character ends there. -/
def dropBytes? : Nat → List Char → Option (List Char)
  | 0, cs => some cs
  | _ + 1, [] => none
  | n + 1, c :: cs => if c.utf8Size ≤ n + 1 then dropBytes? (n + 1 - c.utf8Size) cs else none

/-- The first `n` bytes, if a character ends there. -/
def takeBytes? : Nat → List Char → Option (List Char)
  | 0, _ => some []
  | _ + 1, [] => none
  | n + 1, c :: cs =>
    if c.utf8Size ≤ n + 1 then (takeBytes? (n + 1 - c.utf8Size) cs).map (c :: ·) else none

/-- The text between two offsets, if they are in order and both stand between characters. -/
def slice? (cs : List Char) (start stop : Nat) : Option (List Char) :=
  if start ≤ stop then (dropBytes? start cs).bind (takeBytes? (stop - start)) else none

/-- The text between two offsets, empty where there is no such slice. -/
def slice (cs : List Char) (start stop : Nat) : List Char :=
  (slice? cs start stop).getD []

theorem dropBytes?_byteLength_append (cs ds : List Char) :
    dropBytes? (byteLength cs) (cs ++ ds) = some ds := by
  induction cs with
  | nil => simp [dropBytes?]
  | cons c cs ih =>
    have hc : 0 < c.utf8Size := c.utf8Size_pos
    obtain ⟨n, hn⟩ : ∃ n, byteLength (c :: cs) = n + 1 := ⟨_, (Nat.succ_pred_eq_of_pos
      (by simp only [byteLength_cons]; omega)).symm⟩
    have hsize : n + 1 - c.utf8Size = byteLength cs := by
      rw [← hn, byteLength_cons]; omega
    have hle : c.utf8Size ≤ n + 1 := by rw [← hn, byteLength_cons]; omega
    rw [hn, List.cons_append, dropBytes?, if_pos hle, hsize, ih]

theorem takeBytes?_byteLength_append (cs ds : List Char) :
    takeBytes? (byteLength cs) (cs ++ ds) = some cs := by
  induction cs with
  | nil => simp [takeBytes?]
  | cons c cs ih =>
    have hc : 0 < c.utf8Size := c.utf8Size_pos
    obtain ⟨n, hn⟩ : ∃ n, byteLength (c :: cs) = n + 1 := ⟨_, (Nat.succ_pred_eq_of_pos
      (by simp only [byteLength_cons]; omega)).symm⟩
    have hsize : n + 1 - c.utf8Size = byteLength cs := by
      rw [← hn, byteLength_cons]; omega
    have hle : c.utf8Size ≤ n + 1 := by rw [← hn, byteLength_cons]; omega
    rw [hn, List.cons_append, takeBytes?, if_pos hle, hsize, ih, Option.map_some]

/-- A slice is what stands between a text of the first length and one of the second. -/
theorem slice?_append (before middle after : List Char) :
    slice? (before ++ middle ++ after) (byteLength before) (byteLength (before ++ middle)) =
      some middle := by
  have hle : byteLength before ≤ byteLength (before ++ middle) := by simp
  have hlen : byteLength (before ++ middle) - byteLength before = byteLength middle := by simp
  rw [slice?, if_pos hle, List.append_assoc, dropBytes?_byteLength_append, hlen, Option.bind_some,
    takeBytes?_byteLength_append]

theorem slice_append (before middle after : List Char) :
    slice (before ++ (middle ++ after)) (byteLength before)
      (byteLength before + byteLength middle) = middle := by
  unfold slice
  rw [← byteLength_append, ← List.append_assoc, slice?_append]
  rfl

end TreeQuery.Text
