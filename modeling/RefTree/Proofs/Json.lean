import Mathlib.Algebra.Group.Int.Defs
import Mathlib.Data.List.Basic
import Mathlib.Data.List.TakeWhile
import Mathlib.Tactic.SplitIfs
import RefTree.Json.Reader
import RefTree.Proofs.Value
import RefTree.Value.Render

/-!
# Proofs/Json — trees come back from their JSON text

`compact` writes a tree and `value` reads one from the front of a text.  Read after written, a piece
comes back with whatever stood behind it: a string (`unquote_quote`), an integer (`numeral_text`), a
tree (`value_compact`).  Every reader decides by the first character, so what matters of a written
piece is that character (`opening_compact`), and of the text behind a numeral that it does not go on
with the numeral (`Stops`).
-/

namespace RefTree

namespace Json

variable {rest : List Char}

/-! ## Strings -/

theorem hexValue?_hexDigit : ∀ n < 16, hexValue? (hexDigit n) = some n := by decide

theorem codeUnit?_hexDigit {n : Nat} (h : n < 32) :
    codeUnit? '0' '0' (hexDigit (n / 16)) (hexDigit (n % 16)) = some n := by
  have hzero : hexValue? '0' = some 0 := by decide
  simp only [codeUnit?, hzero, hexValue?_hexDigit (n / 16) (by omega),
    hexValue?_hexDigit (n % 16) (by omega)]
  exact congrArg some (by omega)

/-- A character above U+001F that is not escaped is read as it is. -/
theorem unquote_cons {c : Char} (hquote : c ≠ '"') (hslash : c ≠ '\\') (hlow : ¬ c.toNat < 32) :
    unquote none (c :: rest) = consTo c (unquote none rest) := by
  rw [unquote]
  · simp [hlow, hslash]
  all_goals simp_all

/-- **A character is read as it was written.** -/
theorem unquote_escape (c : Char) :
    unquote none (escape c ++ rest) = consTo c (unquote none rest) := by
  unfold escape
  split_ifs with hquote hslash hb hf hn hr ht hlow
  · subst hquote; rfl
  · subst hslash; rfl
  · subst hb; rfl
  · subst hf; rfl
  · subst hn; rfl
  · subst hr; rfl
  · subst ht; rfl
  · have hhigh : isHigh c.toNat = false := by simp [isHigh]; omega
    have hlow' : isLow c.toNat = false := by simp [isLow]; omega
    simp [unquote, codeUnit?_hexDigit hlow, hhigh, hlow', Char.ofNat_toNat]
  · exact unquote_cons hquote hslash hlow

/-- **A string is read as it was written.** -/
theorem unquote_quote (cs : List Char) :
    unquote none (cs.flatMap escape ++ '"' :: rest) = some (cs, rest) := by
  induction cs with
  | nil => rfl
  | cons c cs ih => rw [List.flatMap_cons, List.append_assoc, unquote_escape, ih]; rfl

/-! ## Numerals -/

/-- The text does not go on with a numeral that ends before it. -/
def Stops (rest : List Char) : Prop :=
  ∀ c ∈ rest.head?, c.isDigit = false ∧ c ≠ '.' ∧ c ≠ 'e' ∧ c ≠ 'E'

theorem stops_nil : Stops [] := by simp [Stops]

theorem stops_cons {c : Char} : Stops (c :: rest) ↔
    c.isDigit = false ∧ c ≠ '.' ∧ c ≠ 'e' ∧ c ≠ 'E' := by simp [Stops]

theorem isDigit_of_mem {n : Nat} {c : Char} (h : c ∈ Nat.toDigits 10 n) : c.isDigit = true :=
  Nat.isDigit_of_mem_toDigits (by decide) (by decide) h

theorem exists_toDigits_eq_cons (n : Nat) :
    ∃ c cs, Nat.toDigits 10 n = c :: cs ∧ c.isDigit = true := by
  obtain ⟨c, cs, heq⟩ := List.exists_cons_of_ne_nil (Nat.toDigits_ne_nil (n := n) (b := 10))
  exact ⟨c, cs, heq, isDigit_of_mem (heq ▸ List.mem_cons_self)⟩

theorem digitsValue_toDigits (n : Nat) : digitsValue (Nat.toDigits 10 n) = n :=
  Nat.ofDigitChars_toDigits (by decide) (by decide)

/-- Only zero is written with a zero in front. -/
theorem head?_toDigits {n : Nat} (h : n ≠ 0) : (Nat.toDigits 10 n).head? ≠ some '0' := by
  induction n using Nat.strongRecOn with
  | ind n ih =>
    rw [Nat.toDigits_eq_if (by decide)]
    split_ifs with hlt
    · simpa using h
    · rw [List.head?_append_of_ne_nil _ Nat.toDigits_ne_nil]
      exact ih (n / 10) (by omega) (by omega)

theorem someDigits_toDigits (n : Nat) (h : Stops rest) :
    someDigits (Nat.toDigits 10 n ++ rest) = some (Nat.toDigits 10 n, rest) := by
  have hall : ∀ c ∈ Nat.toDigits 10 n, c.isDigit = true := fun c => isDigit_of_mem
  have htake : rest.takeWhile Char.isDigit = [] := by
    cases rest with
    | nil => rfl
    | cons c cs => simp [(stops_cons.mp h).1]
  have hdrop : rest.dropWhile Char.isDigit = rest := by
    cases rest with
    | nil => rfl
    | cons c cs => simp [(stops_cons.mp h).1]
  have hdigits : digits (Nat.toDigits 10 n ++ rest) = (Nat.toDigits 10 n, rest) := by
    rw [digits, List.takeWhile_append_of_pos hall, List.dropWhile_append_of_pos hall, htake, hdrop,
      List.append_nil]
  rw [someDigits, hdigits]
  obtain ⟨c, cs, heq, -⟩ := exists_toDigits_eq_cons n
  rw [heq]

/-- The digits of a number that fits are read as that number. -/
theorem unsigned_toDigits {negative : Bool} {n : Nat} {found : Number} (h : Stops rest)
    (hfits : integer? negative (Nat.toDigits 10 n) = some found) :
    unsigned negative (Nat.toDigits 10 n ++ rest) = some (found, rest) := by
  have hzero : ¬ ((Nat.toDigits 10 n).head? = some '0' && (Nat.toDigits 10 n).length ≠ 1) := by
    rcases Nat.eq_zero_or_pos n with rfl | hpos
    · decide
    · simp [head?_toDigits (Nat.ne_of_gt hpos)]
  rw [unsigned, someDigits_toDigits n h]
  simp only [Option.bind_some, if_neg hzero]
  cases rest with
  | nil => simp [hfits]
  | cons c cs =>
    obtain ⟨-, hpoint, hlower, hupper⟩ := stops_cons.mp h
    simp [hpoint, hlower, hupper, hfits]

/-- **An integer of 64 bits is read as it was written.** -/
theorem numeral_text {n : Int} (hn : Number.Fits n) (h : Stops rest) :
    numeral ((Number.integer n).text.toList ++ rest) = some (.integer n, rest) := by
  obtain ⟨hlow, hhigh⟩ := hn
  cases n with
  | ofNat n =>
    have hfits : integer? false (Nat.toDigits 10 n) = some (.integer n) := by
      have hlt : n < Nat.pow 2 64 := Int.ofNat_lt.mp hhigh
      simp [integer?, digitsValue_toDigits, hlt]
    obtain ⟨c, cs, heq, hc⟩ := exists_toDigits_eq_cons n
    have hc : c ≠ '-' := by
      rintro rfl
      exact absurd hc (by decide)
    have hplain : numeral (c :: cs ++ rest) = unsigned false (c :: cs ++ rest) := by
      rw [List.cons_append, numeral]
      simpa using hc
    rw [Number.text, Number.integerText, Nat.toList_repr, heq, hplain, ← heq]
    exact unsigned_toDigits h hfits
  | negSucc n =>
    have hfits : integer? true (Nat.toDigits 10 (n + 1)) = some (.integer (.negSucc n)) := by
      have hle : n + 1 ≤ Nat.pow 2 63 := by omega
      simp [integer?, digitsValue_toDigits, hle, Int.negSucc_eq]
    rw [Number.text, Number.integerText, String.toList_append, Nat.toList_repr]
    exact unsigned_toDigits h hfits

/-! ## Items between brackets -/

variable {α : Type} {element : List Char → Option (α × List Char)} {write : α → List Char}
  {close : Char}

/-- The items behind the first, each after a comma, and the end of all. -/
def further (write : α → List Char) (close : Char) : List α → List Char
  | [] => [close]
  | x :: xs => ',' :: write x ++ further write close xs

theorem length_lt_further (xs : List α) : xs.length < (further write close xs).length := by
  induction xs with
  | nil => simp [further]
  | cons x xs ih =>
    simp only [further, List.cons_append, List.length_cons, List.length_append]
    omega

theorem skipBlanks_cons {c : Char} (h : isBlank c = false) :
    skipBlanks (c :: rest) = c :: rest := by
  simp [skipBlanks, h]

/-- What is written for `x` is read as `x`, and nothing of what stands behind it. -/
def ReadsAs (element : List Char → Option (α × List Char)) (write : α → List Char) (x : α) : Prop :=
  ∀ rest, Stops rest → element (write x ++ rest) = some (x, rest)

/-- A character ends what it follows, and is not a comma. -/
structure Closes (close : Char) : Prop where
  stops : ∀ rest, Stops (close :: rest)
  nonblank : isBlank close = false
  ne_comma : close ≠ ','

theorem closes_list : Closes ']' := ⟨fun _ => stops_cons.mpr (by decide), by decide, by decide⟩

theorem closes_map : Closes '\x7d' := ⟨fun _ => stops_cons.mpr (by decide), by decide, by decide⟩

theorem elements_further (hclose : Closes close) {x : α} {xs : List α} {fuel : Nat}
    (h : ∀ y ∈ x :: xs, ReadsAs element write y) (hfuel : xs.length < fuel) :
    elements element close fuel (write x ++ (further write close xs ++ rest)) =
      some (x :: xs, rest) := by
  induction xs generalizing x fuel with
  | nil =>
    obtain ⟨fuel, rfl⟩ := Nat.exists_eq_add_of_lt hfuel
    have hx := h x List.mem_cons_self (close :: rest) (hclose.stops rest)
    simp only [further, elements, List.cons_append, List.nil_append, hx, Option.bind_some,
      skipBlanks_cons hclose.nonblank, if_true]
  | cons y ys ih =>
    obtain ⟨fuel, rfl⟩ := Nat.exists_eq_add_of_lt hfuel
    have hx := h x List.mem_cons_self (',' :: (write y ++ (further write close ys ++ rest)))
      (stops_cons.mpr (by decide))
    have hys := ih (fun z hz => h z (List.mem_cons_of_mem x hz))
      (show ys.length < (y :: ys).length + fuel by simp only [List.length_cons]; omega)
    simp only [further, elements, List.cons_append, List.append_assoc, hx, Option.bind_some,
      skipBlanks_cons (show isBlank ',' = false by decide), if_neg hclose.ne_comma.symm, if_true,
      hys, Option.map_some]

/-- What is written for `x` can open what stands between brackets. -/
def Opening (write : α → List Char) (close : Char) (x : α) : Prop :=
  ∃ c cs, write x = c :: cs ∧ isBlank c = false ∧ c ≠ close

/-- **Items written between brackets are read as these items.** -/
theorem bracketed_further (hclose : Closes close) {x : α} {xs : List α}
    (h : ∀ y ∈ x :: xs, ReadsAs element write y) (hopen : Opening write close x) :
    bracketed element close (write x ++ (further write close xs ++ rest)) =
      some (x :: xs, rest) := by
  obtain ⟨c, cs, hwrite, hblank, hne⟩ := hopen
  have hfuel : xs.length < (write x ++ (further write close xs ++ rest)).length := by
    have hlt : xs.length < (further write close xs).length := length_lt_further xs
    simp only [List.length_append]
    omega
  rw [bracketed, ← elements_further hclose h hfuel, hwrite, List.cons_append,
    skipBlanks_cons hblank]
  simp [hne]

theorem bracketed_nil (hclose : Closes close) :
    bracketed element close (close :: rest) = some ([], rest) := by
  simp [bracketed, skipBlanks_cons hclose.nonblank]

/-! ## Trees -/

theorem compactItems_eq (items : List Value) : compactItems items = further compact ']' items := by
  induction items with
  | nil => rfl
  | cons x xs ih => rw [compactItems, ih]; rfl

/-- The text of an entry of a mapping. -/
def compactEntry (e : String × Value) : List Char := quote e.1 ++ ':' :: compact e.2

theorem compactEntries_eq (entries : List (String × Value)) :
    compactEntries entries = further compactEntry '\x7d' entries := by
  induction entries with
  | nil => rfl
  | cons e es ih => rw [compactEntries, ih]; simp [further, compactEntry]

theorem compact_list_cons (x : Value) (xs : List Value) :
    compact (.list (x :: xs)) = '[' :: (compact x ++ further compact ']' xs) := by
  rw [compact, compactItems_eq]
  rfl

theorem compact_map_cons (e : String × Value) (es : List (String × Value)) :
    compact (.map (e :: es)) = '\x7b' :: (compactEntry e ++ further compactEntry '\x7d' es) := by
  rw [compact, compactEntries_eq]
  simp [compactEntry]

end Json

namespace Value

/-- **A tree that JSON can hold as it is**: its numbers are integers of 64 bits, every key of a
mapping stands once, and its lists and mappings nest at most `room` deep. -/
inductive Portable : Nat → Value → Prop where
  | null {room : Nat} : Portable room .null
  | bool {room : Nat} (b : Bool) : Portable room (.bool b)
  | integer {room : Nat} {n : Int} (h : Number.Fits n) : Portable room (.number (.integer n))
  | string {room : Nat} (s : String) : Portable room (.string s)
  | list {room : Nat} {items : List Value} (h : ∀ x ∈ items, Portable room x) :
      Portable (room + 1) (.list items)
  | map {room : Nat} {entries : List (String × Value)} (hkeys : (entries.map Prod.fst).Nodup)
      (h : ∀ e ∈ entries, Portable room e.2) : Portable (room + 1) (.map entries)

end Value

namespace Json

theorem isBlank_of_isDigit_or {c : Char} (h : c.isDigit ∨ c = '-') : isBlank c = false := by
  refine Bool.eq_false_iff.mpr fun hblank => ?_
  simp only [isBlank, Bool.or_eq_true, decide_eq_true_eq] at hblank
  rcases hblank with ((rfl | rfl) | rfl) | rfl <;> exact absurd h (by decide)

theorem isDigit_or_of_text {n : Int} :
    ∃ c cs, (Number.integer n).text.toList = c :: cs ∧ (c.isDigit ∨ c = '-') := by
  cases n with
  | ofNat n =>
    obtain ⟨c, cs, heq, hc⟩ := exists_toDigits_eq_cons n
    exact ⟨c, cs, by simp [Number.text, Number.integerText, heq], .inl hc⟩
  | negSucc n =>
    exact ⟨'-', Nat.toDigits 10 (n + 1), by simp [Number.text, Number.integerText], .inr rfl⟩

/-- A text that begins as a numeral is read as one. -/
theorem value_numeral {room : Nat} {c : Char} {cs : List Char} (h : c.isDigit ∨ c = '-') :
    value room (c :: cs) = (numeral (c :: cs)).map fun (n, rest) => (.number n, rest) := by
  rw [value, skipBlanks_cons (isBlank_of_isDigit_or h)]
  split
  case h_7 => rfl
  all_goals
    next heq =>
      obtain ⟨rfl, -⟩ := List.cons.inj heq
      exact absurd h (by decide)

theorem value_string {room : Nat} {cs : List Char} :
    value room ('"' :: cs) =
      (unquote none cs).map fun (s, rest) => (.string (String.ofList s), rest) := by
  rw [value, skipBlanks_cons (by decide)]
  rfl

theorem value_list {room : Nat} {cs : List Char} :
    value (room + 1) ('[' :: cs) =
      (bracketed (value room) ']' cs).map fun (xs, rest) => (.list xs, rest) := by
  rw [value, skipBlanks_cons (by decide)]
  rfl

theorem value_map {room : Nat} {cs : List Char} :
    value (room + 1) ('\x7b' :: cs) =
      (bracketed (entry (value room)) '\x7d' cs).map fun (es, rest) => (.map es, rest) := by
  rw [value, skipBlanks_cons (by decide)]
  rfl

/-- The first character of a tree is not a blank and ends no list. -/
theorem opening_compact {room : Nat} {v : Value} (h : v.Portable room) :
    Opening compact ']' v := by
  cases h with
  | null => exact ⟨'n', _, rfl, by decide, by decide⟩
  | bool b => cases b <;> exact ⟨_, _, rfl, by decide, by decide⟩
  | integer h =>
    obtain ⟨c, cs, heq, hc⟩ := isDigit_or_of_text
    refine ⟨c, cs, by rw [compact, heq], isBlank_of_isDigit_or hc, ?_⟩
    rintro rfl
    exact absurd hc (by decide)
  | string s => exact ⟨'"', _, rfl, by decide, by decide⟩
  | @list room items h => cases items <;> exact ⟨'[', _, rfl, by decide, by decide⟩
  | @map room entries hkeys h =>
    cases entries <;> exact ⟨'\x7b', _, rfl, by decide, by decide⟩

theorem opening_compactEntry (e : String × Value) : Opening compactEntry '\x7d' e :=
  ⟨'"', _, rfl, by decide, by decide⟩

/-- An entry is read as it was written if its value is. -/
theorem entry_compactEntry {room : Nat} {e : String × Value}
    (h : ReadsAs (value room) compact e.2) : ReadsAs (entry (value room)) compactEntry e := by
  intro rest hrest
  have htext : compactEntry e ++ rest =
      '"' :: (e.1.toList.flatMap escape ++ '"' :: ':' :: (compact e.2 ++ rest)) := by
    simp [compactEntry, quote]
  rw [htext, entry, skipBlanks_cons (by decide)]
  simp only [unquote_quote, Option.bind_some, skipBlanks_cons (show isBlank ':' = false by decide),
    h rest hrest, Option.map_some, String.ofList_toList]

/-- **A tree is read as it was written.** -/
theorem value_compact {room : Nat} {v : Value} (h : v.Portable room) :
    ReadsAs (value room) compact v := by
  induction h with
  | null => exact fun rest _ => by rw [value]; rfl
  | bool b => cases b <;> exact fun rest _ => by rw [value]; rfl
  | integer hn =>
    intro rest hrest
    obtain ⟨c, cs, heq, hc⟩ := isDigit_or_of_text
    rw [compact, heq, List.cons_append, value_numeral hc, ← List.cons_append, ← heq,
      numeral_text hn hrest]
    rfl
  | string s =>
    intro rest _
    have htext : compact (.string s) ++ rest = '"' :: (s.toList.flatMap escape ++ '"' :: rest) := by
      simp [compact, quote]
    simp only [htext, value_string, unquote_quote, Option.map_some, String.ofList_toList]
  | @list room items h ih =>
    intro rest _
    cases items with
    | nil =>
      rw [compact, List.cons_append, value_list]
      exact congrArg _ (bracketed_nil closes_list)
    | cons x xs =>
      have hopen := opening_compact (h x List.mem_cons_self)
      rw [compact_list_cons, List.cons_append, List.append_assoc, value_list,
        bracketed_further closes_list ih hopen, Option.map_some]
  | @map room entries hkeys h ih =>
    intro rest _
    cases entries with
    | nil =>
      rw [compact, List.cons_append, value_map]
      exact congrArg _ (bracketed_nil closes_map)
    | cons e es =>
      have hitems := fun e he => entry_compactEntry (ih e he)
      rw [compact_map_cons, List.cons_append, List.append_assoc, value_map,
        bracketed_further closes_map hitems (opening_compactEntry e), Option.map_some]

end Json

/-! ## Merging -/

namespace Value

theorem insert_of_notMem {key : String} {v : Value} {entries : List (String × Value)}
    (h : key ∉ entries.map Prod.fst) : insert key v entries = entries ++ [(key, v)] := by
  induction entries with
  | nil => rfl
  | cons e es ih =>
    rw [List.map_cons, List.mem_cons, not_or] at h
    rw [insert, if_neg (Ne.symm h.1), ih h.2, List.cons_append]

/-- Pairs with distinct keys are written one behind the other. -/
theorem foldl_insert {before pairs : List (String × Value)}
    (h : ((before ++ pairs).map Prod.fst).Nodup) :
    pairs.foldl (fun entries (key, value) => insert key value entries) before =
      before ++ pairs := by
  induction pairs generalizing before with
  | nil => simp
  | cons e es ih =>
    obtain ⟨key, v⟩ := e
    have hkey : key ∉ before.map Prod.fst := by
      rw [List.map_append, List.nodup_append] at h
      exact fun hmem => h.2.2 key hmem key (by simp) rfl
    simp only [List.foldl_cons, insert_of_notMem hkey]
    rw [ih (by simpa using h)]
    simp

theorem ofPairs_of_nodup {entries : List (String × Value)}
    (h : (entries.map Prod.fst).Nodup) : ofPairs entries = .map entries :=
  congrArg map (@foldl_insert [] entries h)

theorem mergeItems_of_forall {items : List Value} (h : ∀ x ∈ items, merge x = x) :
    mergeItems items = items := by
  induction items with
  | nil => rfl
  | cons x xs ih =>
    obtain ⟨hx, hxs⟩ := List.forall_mem_cons.mp h
    rw [mergeItems, hx, ih hxs]

theorem mergeEntries_of_forall {entries : List (String × Value)}
    (h : ∀ e ∈ entries, merge e.2 = e.2) : mergeEntries entries = entries := by
  induction entries with
  | nil => rfl
  | cons e es ih =>
    obtain ⟨he, hes⟩ := List.forall_mem_cons.mp h
    rw [mergeEntries, he, ih hes]

/-- **A tree in which every key stands once is left as it is.** -/
theorem Portable.merge_eq {room : Nat} {v : Value} (h : v.Portable room) : v.merge = v := by
  induction h with
  | null => rfl
  | bool b => rfl
  | integer hn => rfl
  | string s => rfl
  | list h ih => rw [merge, mergeItems_of_forall ih]
  | map hkeys h ih => rw [merge, mergeEntries_of_forall ih, ofPairs_of_nodup hkeys]

/-! ## Documents -/

theorem Portable.parseWithin_toJson {room : Nat} {v : Value} (h : v.Portable room) :
    Json.parseWithin room v.toJson = some v := by
  have hread := Json.value_compact h [] Json.stops_nil
  rw [List.append_nil] at hread
  rw [Json.parseWithin, toJson, String.toList_ofList, hread]
  rfl

/-- **The JSON text of a tree spells this tree.** -/
theorem Portable.parse_toJson {v : Value} (h : v.Portable Json.maxNesting) :
    Json.parse v.toJson = some v := by
  rw [Json.parse, Json.parseEntries, h.parseWithin_toJson, Option.map_some, h.merge_eq]

/-- **Main result: a mapping loses nothing where it is spliced into a text.**  What is left there in
its place is JSON text of this very mapping: every node of the same kind, every string and integer
the same, and the entries in their order. -/
theorem parse_render {entries : List (String × Value)}
    (h : (Value.map entries).Portable Json.maxNesting) :
    Json.parse (Value.map entries).render = some (.map entries) := by
  rw [render]
  exact h.parse_toJson

/-- A mapping with escapes of every kind, the integers at both ends, and empty and nested nodes. -/
def mixed : List (String × Value) :=
  [("q\"\\/", .list [.null, .bool true, .number (.integer (-(2 ^ 63))), .list [], .map []]),
    ("", .map [("z\u0001\n", .string "é😀\t@\x7b z \x7d"), ("a", .number (.integer (2 ^ 64 - 1)))])]

theorem portable_mixed : (Value.map mixed).Portable Json.maxNesting := by
  refine .map (by decide) ?_
  simp only [mixed, List.forall_mem_cons, List.not_mem_nil, false_implies, implies_true, and_true]
  constructor
  · refine .list ?_
    simp only [List.forall_mem_cons, List.not_mem_nil, false_implies, implies_true, and_true]
    exact ⟨.null, .bool true, .integer (by decide), .list (by simp),
      .map (by simp) (by simp)⟩
  · refine .map (by decide) ?_
    simp only [List.forall_mem_cons, List.not_mem_nil, false_implies, implies_true, and_true]
    exact ⟨.string _, .integer (by decide)⟩

theorem parse_render_mixed :
    (Value.map mixed).Portable Json.maxNesting ∧
      Json.parse (Value.map mixed).render = some (.map mixed) :=
  ⟨portable_mixed, parse_render portable_mixed⟩

end Value

end RefTree
