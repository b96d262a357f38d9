/-!
# Text/Bytes — texts measured and cut by their bytes in UTF-8
-/

namespace RefTree.Text

/-- The number of bytes that characters take. -/
def byteLength : List Char → Nat
  | [] => 0
  | c :: cs => c.utf8Size + byteLength cs

/-- What stands before the byte offset `n`, and what stands after it. -/
def cutAt : Nat → List Char → List Char × List Char
  | _, [] => ([], [])
  | n, c :: cs => if n = 0 then ([], c :: cs) else
    let (before, after) := cutAt (n - c.utf8Size) cs
    (c :: before, after)

theorem byteLength_append (cs ds : List Char) :
    byteLength (cs ++ ds) = byteLength cs + byteLength ds := by
  induction cs with
  | nil => simp [byteLength]
  | cons c cs ih => simp [byteLength, ih, Nat.add_assoc]

theorem byteLength_eq_zero_iff {cs : List Char} : byteLength cs = 0 ↔ cs = [] := by
  cases cs with
  | nil => simp [byteLength]
  | cons c cs =>
    have := c.utf8Size_pos
    simp only [byteLength, reduceCtorEq, iff_false]
    omega

@[simp] theorem cutAt_zero (cs : List Char) : cutAt 0 cs = ([], cs) := by cases cs <;> simp [cutAt]

/-- **Cutting where one text ends and another begins gives the two texts.** -/
theorem cutAt_byteLength (cs ds : List Char) : cutAt (byteLength cs) (cs ++ ds) = (cs, ds) := by
  induction cs with
  | nil => simp [byteLength]
  | cons c cs ih =>
    have hne : c.utf8Size ≠ 0 := Nat.ne_of_gt c.utf8Size_pos
    simp [byteLength, cutAt, hne, ih]

end RefTree.Text
