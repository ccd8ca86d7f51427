import DrakeSyntax.Json
import DrakeSyntax.Token.Number

/-!
# JSON texts

A JSON value can be read off its text, in the compact form and in the pretty one: behind the text
of a value there may stand anything that does not go on with a number, and still the text has come
to its end where the value has (`Json.chars_append_inj`). So different values have different texts
(`Json.compact_inj`, `Json.pretty_inj`).

The two forms differ in the white space between the parts of a value only. They are dealt with as
one text with a layout (`Json.chars`).
-/

namespace DrakeSyntax

namespace Json

/-! ### One text for both forms -/

/-- The white space in a text: what stands in front of an element at a depth, and what stands
behind the colon of a key. -/
structure Layout where
  lineStart : Nat → List Char
  gap : List Char

namespace Layout

def compact : Layout := ⟨fun _ => [], []⟩

def pretty : Layout := ⟨fun depth => (Json.lineStart depth).toList, [' ']⟩

/-- Nothing but blanks and line breaks stands in front of an element. -/
def Blank (l : Layout) : Prop := ∀ depth, ∀ c ∈ l.lineStart depth, c = ' ' ∨ c = '\n'

/-- What stands behind the first element of a sequence: the others and the closing bracket. -/
def behind (l : Layout) (depth : Nat) (closing : Char) (ws : List (List Char)) : List Char :=
  ws.flatMap (fun w => ',' :: (l.lineStart (depth + 1) ++ w)) ++ (l.lineStart depth ++ [closing])

/-- A sequence of elements in brackets. -/
def enclosed (l : Layout) (opening closing : Char) (depth : Nat) : List (List Char) → List Char
  | [] => [opening, closing]
  | w :: ws => opening :: (l.lineStart (depth + 1) ++ (w ++ l.behind depth closing ws))

end Layout

mutual

/-- The text of a value at a depth. -/
def chars (l : Layout) (depth : Nat) : Json → List Char
  | null => ['n', 'u', 'l', 'l']
  | boolean true => ['t', 'r', 'u', 'e']
  | boolean false => ['f', 'a', 'l', 's', 'e']
  | number n => Nat.toDigits 10 n
  | string s => (stringText s).toList
  | array items => l.enclosed '[' ']' depth (charsItems l (depth + 1) items)
  | object fields => l.enclosed '\x7b' '\x7d' depth (charsFields l (depth + 1) fields)

/-- The texts of the elements of an array. -/
def charsItems (l : Layout) (depth : Nat) : List Json → List (List Char)
  | [] => []
  | j :: js => j.chars l depth :: charsItems l depth js

/-- The texts of the members of an object. -/
def charsFields (l : Layout) (depth : Nat) : List (String × Json) → List (List Char)
  | [] => []
  | (name, j) :: fields =>
    ((stringText name).toList ++ ':' :: (l.gap ++ j.chars l depth)) :: charsFields l depth fields

end

theorem toList_separated (s w : String) (ws : List String) :
    (("," ++ s).intercalate (w :: ws)).toList =
      w.toList ++ (ws.map String.toList).flatMap fun w => ',' :: (s.toList ++ w) := by
  induction ws generalizing w with
  | nil => simp
  | cons w' ws ih =>
    rw [String.intercalate_cons_cons, String.toList_append, String.toList_append, ih]
    simp [String.toList_append]

section

variable {opening closing : String} {o c : Char}

theorem toList_enclosed (ho : opening.toList = [o]) (hc : closing.toList = [c]) (depth : Nat)
    (ws : List String) : (opening ++ ",".intercalate ws ++ closing).toList =
      Layout.compact.enclosed o c depth (ws.map String.toList) := by
  cases ws with
  | nil => simp [Layout.enclosed, ho, hc]
  | cons w ws =>
    have hseparated := toList_separated "" w ws
    rw [String.append_empty] at hseparated
    rw [String.toList_append, String.toList_append, hseparated, ho, hc]
    simp [Layout.enclosed, Layout.behind, Layout.compact]

theorem toList_broken (ho : opening.toList = [o]) (hc : closing.toList = [c]) (depth : Nat)
    (ws : List String) : (broken opening closing depth ws).toList =
      Layout.pretty.enclosed o c depth (ws.map String.toList) := by
  cases ws with
  | nil => simp [broken, Layout.enclosed, String.toList_append, ho, hc]
  | cons w ws =>
    simp only [broken, List.isEmpty_cons, Bool.false_eq_true, if_false]
    rw [String.toList_append, String.toList_append, String.toList_append, String.toList_append,
      toList_separated, ho, hc]
    simp [Layout.enclosed, Layout.behind, Layout.pretty]

end

mutual

/-- The compact form is the text without any white space. -/
theorem toList_compact (depth : Nat) (j : Json) : j.compact.toList = j.chars .compact depth := by
  cases j with
  | null => rfl
  | boolean b => cases b <;> rfl
  | number n => rw [compact, chars, Nat.toString_eq_repr, Nat.toList_repr]
  | string s => rw [compact, chars]
  | array items =>
    rw [compact, chars, ← toList_compactItems, toList_enclosed (o := '[') (c := ']') rfl rfl depth]
  | object fields =>
    rw [compact, chars, ← toList_compactFields,
      toList_enclosed (o := '\x7b') (c := '\x7d') rfl rfl depth]

theorem toList_compactItems (depth : Nat) (js : List Json) :
    (compactItems js).map String.toList = charsItems .compact depth js := by
  cases js with
  | nil => rfl
  | cons j js =>
    rw [compactItems, charsItems, List.map_cons, toList_compact, toList_compactItems]

theorem toList_compactFields (depth : Nat) (fields : List (String × Json)) :
    (compactFields fields).map String.toList = charsFields .compact depth fields := by
  cases fields with
  | nil => rfl
  | cons field fields =>
    obtain ⟨name, j⟩ := field
    rw [compactFields, charsFields, List.map_cons, toList_compactFields depth fields,
      String.toList_append, toList_compact depth j]
    simp [keyText, String.toList_append, Layout.compact]

end

mutual

/-- The pretty form is the text with line breaks and blanks. -/
theorem toList_prettyAt (depth : Nat) (j : Json) :
    (j.prettyAt depth).toList = j.chars .pretty depth := by
  cases j with
  | null =>
    rw [prettyAt]
    rfl
  | boolean b =>
    cases b
    all_goals
      rw [prettyAt]
      rfl
  | number n => rw [prettyAt, chars, Nat.toString_eq_repr, Nat.toList_repr]
  | string s => rw [prettyAt, chars]
  | array items =>
    rw [prettyAt, chars, ← toList_prettyItems, toList_broken (o := '[') (c := ']') rfl rfl]
  | object fields =>
    rw [prettyAt, chars, ← toList_prettyFields,
      toList_broken (o := '\x7b') (c := '\x7d') rfl rfl]

theorem toList_prettyItems (depth : Nat) (js : List Json) :
    (prettyItems depth js).map String.toList = charsItems .pretty depth js := by
  cases js with
  | nil => rfl
  | cons j js =>
    rw [prettyItems, charsItems, List.map_cons, toList_prettyAt, toList_prettyItems]

theorem toList_prettyFields (depth : Nat) (fields : List (String × Json)) :
    (prettyFields depth fields).map String.toList = charsFields .pretty depth fields := by
  cases fields with
  | nil => rfl
  | cons field fields =>
    obtain ⟨name, j⟩ := field
    rw [prettyFields, charsFields, List.map_cons, toList_prettyFields depth fields,
      String.toList_append, toList_prettyAt depth j]
    simp [keyText, String.toList_append, Layout.pretty]

end

/-! ### Strings -/

/-- The character that stands at the front of the inside of a string, and what stands behind
it. -/
def readChar : List Char → Option (Char × List Char)
  | '\\' :: 'u' :: '0' :: '0' :: a :: b :: k =>
    match NumberBase.digitValue? a, NumberBase.digitValue? b with
    | some m, some n => some (Char.ofNat (16 * m + n), k)
    | _, _ => none
  | '\\' :: 'b' :: k => some ('\x08', k)
  | '\\' :: 'f' :: k => some ('\x0c', k)
  | '\\' :: 'n' :: k => some ('\n', k)
  | '\\' :: 'r' :: k => some ('\r', k)
  | '\\' :: 't' :: k => some ('\t', k)
  | '\\' :: c :: k => some (c, k)
  | c :: k => some (c, k)
  | [] => none

theorem digitValue?_hexDigit (n : Nat) :
    NumberBase.digitValue? (hexDigit n) = some (n % 16) := by
  have hdigit : ∀ m < 16, NumberBase.digitValue? (Nat.digitChar m) = some m := by decide
  exact hdigit _ (Nat.mod_lt n (by decide))

theorem readChar_plain {c : Char} (hc : c ≠ '\\') (k : List Char) :
    readChar (c :: k) = some (c, k) := by
  unfold readChar
  split
  all_goals simp_all

/-- A string character can be read, whatever stands behind it. -/
theorem readChar_stringChar (c : Char) (k : List Char) :
    readChar (stringChar c ++ k) = some (c, k) := by
  unfold stringChar
  split
  case h_8 hquote hslash _ _ _ _ _ =>
    split
    · next hlow =>
      simp only [List.cons_append, List.nil_append, readChar, digitValue?_hexDigit]
      have hvalue : 16 * (c.toNat / 16 % 16) + c.toNat % 16 = c.toNat := by omega
      rw [hvalue, Char.ofNat_toNat]
    · exact readChar_plain hslash k
  all_goals rfl

/-- A string character does not begin like the end of a string. -/
theorem stringChar_eq_cons (c : Char) : ∃ d w, stringChar c = d :: w ∧ d ≠ '"' := by
  unfold stringChar
  split
  case h_8 hquote hslash _ _ _ _ _ =>
    split
    · exact ⟨_, _, rfl, by decide⟩
    · exact ⟨c, [], rfl, hquote⟩
  all_goals exact ⟨_, _, rfl, by decide⟩

theorem stringChars_append_inj {v u k k' : List Char}
    (h : v.flatMap stringChar ++ '"' :: k = u.flatMap stringChar ++ '"' :: k') :
    v = u ∧ k = k' := by
  induction v generalizing u with
  | nil =>
    cases u with
    | nil => exact ⟨rfl, (List.cons.inj h).2⟩
    | cons d u =>
      obtain ⟨e, w, hd, hne⟩ := stringChar_eq_cons d
      rw [List.flatMap_cons, hd] at h
      exact absurd (List.cons.inj h).1.symm hne
  | cons c v ih =>
    cases u with
    | nil =>
      obtain ⟨e, w, hc, hne⟩ := stringChar_eq_cons c
      rw [List.flatMap_cons, hc] at h
      exact absurd (List.cons.inj h).1 hne
    | cons d u =>
      rw [List.flatMap_cons, List.flatMap_cons, List.append_assoc, List.append_assoc] at h
      have hread := congrArg readChar h
      rw [readChar_stringChar, readChar_stringChar] at hread
      obtain ⟨rfl, hrest⟩ := Prod.mk.inj (Option.some.inj hread)
      obtain ⟨rfl, hk⟩ := ih hrest
      exact ⟨rfl, hk⟩

theorem toList_stringText (s : String) :
    (stringText s).toList = '"' :: (s.toList.flatMap stringChar ++ ['"']) := by
  rw [stringText, String.toList_ofList]
  rfl

/-- **A string can be read off its text**, whatever stands behind it. -/
theorem stringText_append_inj {s t : String} {k k' : List Char}
    (h : (stringText s).toList ++ k = (stringText t).toList ++ k') : s = t ∧ k = k' := by
  simp only [toList_stringText, List.cons_append, List.append_assoc, List.nil_append,
    List.cons.injEq, true_and] at h
  obtain ⟨hchars, hk⟩ := stringChars_append_inj h
  exact ⟨String.toList_inj.1 hchars, hk⟩

/-! ### Values -/

/-- What does not go on with a number. -/
def Ends (k : List Char) : Prop := ∀ c ∈ k.head?, c.isDigit = false

/-- A value of type `α` can be read off its text, whatever stands behind it that does not go on
with a number. -/
def SelfDelimiting {α : Type} (w : α → List Char) (a : α) : Prop :=
  ∀ b k k', Ends k → Ends k' → w a ++ k = w b ++ k' → a = b ∧ k = k'

theorem isDigit_of_mem_digits {n : Nat} {c : Char} (hc : c ∈ Nat.toDigits 10 n) : c.isDigit :=
  Nat.isDigit_of_mem_toDigits (by decide) (by decide) hc

theorem number_append_inj {m n : Nat} {k k' : List Char} (hk : Ends k) (hk' : Ends k')
    (h : Nat.toDigits 10 m ++ k = Nat.toDigits 10 n ++ k') : m = n ∧ k = k' := by
  have htake (n : Nat) {k : List Char} (hk : Ends k) :
      (Nat.toDigits 10 n ++ k).takeWhile Char.isDigit = Nat.toDigits 10 n := by
    have hnone : k.takeWhile Char.isDigit = [] := by
      cases k with
      | nil => rfl
      | cons c k => rw [List.takeWhile_cons_of_neg (by rw [hk c rfl]; decide)]
    rw [List.takeWhile_append_of_pos fun c hc => isDigit_of_mem_digits hc, hnone, List.append_nil]
  have hdigits : Nat.toDigits 10 m = Nat.toDigits 10 n := by rw [← htake m hk, h, htake n hk']
  have hvalue : m = n := by
    rw [← @Nat.ofDigitChars_ten_toDigits m, hdigits, Nat.ofDigitChars_ten_toDigits]
  subst hvalue
  exact ⟨rfl, List.append_cancel_left h⟩

namespace Layout

variable {α : Type} {l : Layout} {closing : Char} {k k' : List Char}

theorem blank_compact : compact.Blank := fun _ => List.forall_mem_nil _

theorem blank_pretty : pretty.Blank := by
  intro depth c hc
  simp only [pretty, Json.lineStart, String.toList_append, String.toList_ofList,
    List.mem_append, List.mem_replicate] at hc
  rcases hc with hc | ⟨-, rfl⟩
  · exact .inr (List.mem_singleton.1 hc)
  · exact .inl rfl

/-- A line begins with white space or with what stands on it. -/
theorem lineStart_eq_cons (hl : l.Blank) (depth : Nat) (c : Char) (k : List Char) :
    ∃ d w, l.lineStart depth ++ c :: k = d :: w ∧ (d = ' ' ∨ d = '\n' ∨ d = c) := by
  cases hstart : l.lineStart depth with
  | nil => exact ⟨c, k, rfl, .inr (.inr rfl)⟩
  | cons d w =>
    have hd := hl depth d (by rw [hstart]; exact List.mem_cons_self)
    exact ⟨d, _, rfl, hd.imp_right .inl⟩

theorem lineStart_ne (hl : l.Blank) {c d : Char} (hcd : c ≠ d) (hd : d ≠ ' ' ∧ d ≠ '\n')
    (depth : Nat) (k k' : List Char) : l.lineStart depth ++ c :: k ≠ d :: k' := by
  obtain ⟨e, w, hcons, he⟩ := lineStart_eq_cons hl depth c k
  rw [hcons]
  intro h
  obtain rfl := (List.cons.inj h).1
  rcases he with he | he | he
  · exact hd.1 he
  · exact hd.2 he
  · exact hcd he.symm

theorem behind_nil (depth : Nat) :
    l.behind depth closing [] ++ k = l.lineStart depth ++ closing :: k := by
  simp [behind]

theorem behind_cons (depth : Nat) (w : List Char) (ws : List (List Char)) :
    l.behind depth closing (w :: ws) ++ k =
      ',' :: (l.lineStart (depth + 1) ++ (w ++ (l.behind depth closing ws ++ k))) := by
  simp [behind]

theorem enclosed_cons (opening : Char) (depth : Nat) (w : List Char) (ws : List (List Char)) :
    l.enclosed opening closing depth (w :: ws) ++ k =
      opening :: (l.lineStart (depth + 1) ++ (w ++ (l.behind depth closing ws ++ k))) := by
  simp [enclosed]

/-- An element ends where the other ones or the closing bracket begin. -/
theorem ends_behind (hl : l.Blank) (hclosing : closing = ']' ∨ closing = '\x7d') (depth : Nat)
    (ws : List (List Char)) : Ends (l.behind depth closing ws ++ k) := by
  cases ws with
  | nil =>
    obtain ⟨d, w, hcons, hd⟩ := lineStart_eq_cons hl depth closing k
    rw [behind_nil, hcons]
    rintro c ⟨rfl⟩
    rcases hd with rfl | rfl | rfl
    · rfl
    · rfl
    · rcases hclosing with rfl | rfl <;> rfl
  | cons w ws =>
    rw [behind_cons]
    rintro c ⟨rfl⟩
    rfl

/-- The elements behind the first one can be read off. -/
theorem behind_append_inj {w : α → List Char} {as bs : List α} (hl : l.Blank)
    (hclosing : closing = ']' ∨ closing = '\x7d') (has : ∀ a ∈ as, SelfDelimiting w a) {depth : Nat}
    (h : l.behind depth closing (as.map w) ++ k = l.behind depth closing (bs.map w) ++ k') :
    as = bs ∧ k = k' := by
  -- the closing bracket does not look like a comma
  have hne : ∀ k k', l.lineStart depth ++ closing :: k ≠ ',' :: k' :=
    lineStart_ne hl (by rcases hclosing with rfl | rfl <;> decide) (by decide) depth
  induction as generalizing bs with
  | nil =>
    cases bs with
    | nil => exact ⟨rfl, List.append_cancel_left h⟩
    | cons b bs =>
      rw [List.map_cons, behind_cons, List.map_nil, behind_nil] at h
      exact absurd h (hne _ _)
  | cons a as ih =>
    obtain ⟨ha, has⟩ := List.forall_mem_cons.1 has
    cases bs with
    | nil =>
      rw [List.map_cons, behind_cons, List.map_nil, behind_nil] at h
      exact absurd h.symm (hne _ _)
    | cons b bs =>
      rw [List.map_cons, behind_cons, List.map_cons, behind_cons] at h
      have hbehind := List.append_cancel_left (List.cons.inj h).2
      obtain ⟨rfl, hrest⟩ := ha b _ _ (ends_behind hl hclosing depth _)
        (ends_behind hl hclosing depth _) hbehind
      obtain ⟨rfl, hk⟩ := ih has hrest
      exact ⟨rfl, hk⟩

/-- **A sequence can be read off its text** if its elements can and none of them begins like the
closing bracket. -/
theorem enclosed_append_inj {w : α → List Char} {as bs : List α} (hl : l.Blank)
    (hclosing : closing = ']' ∨ closing = '\x7d')
    (hw : ∀ a, ∃ c v, w a = c :: v ∧ c ≠ ']' ∧ c ≠ '\x7d')
    (has : ∀ a ∈ as, SelfDelimiting w a) {opening : Char} {depth : Nat}
    (h : l.enclosed opening closing depth (as.map w) ++ k =
      l.enclosed opening closing depth (bs.map w) ++ k') : as = bs ∧ k = k' := by
  -- no element looks like the closing bracket
  have hne (a : α) (k k' : List Char) : l.lineStart (depth + 1) ++ (w a ++ k) ≠ closing :: k' := by
    obtain ⟨c, v, ha, hc⟩ := hw a
    rw [ha]
    refine lineStart_ne hl ?_ ?_ _ _ _
    · rintro rfl
      exact hclosing.elim hc.1 hc.2
    · rcases hclosing with rfl | rfl <;> decide
  cases as with
  | nil =>
    cases bs with
    | nil => exact ⟨rfl, List.append_cancel_left h⟩
    | cons b bs =>
      rw [List.map_cons, enclosed_cons] at h
      exact absurd (List.cons.inj h).2.symm (hne b _ _)
  | cons a as =>
    obtain ⟨ha, has⟩ := List.forall_mem_cons.1 has
    cases bs with
    | nil =>
      rw [List.map_cons, enclosed_cons] at h
      exact absurd (List.cons.inj h).2 (hne a _ _)
    | cons b bs =>
      rw [List.map_cons, enclosed_cons, List.map_cons, enclosed_cons] at h
      have hbehind := List.append_cancel_left (List.cons.inj h).2
      obtain ⟨rfl, hrest⟩ := ha b _ _ (ends_behind hl hclosing depth _)
        (ends_behind hl hclosing depth _) hbehind
      obtain ⟨rfl, hk⟩ := behind_append_inj hl hclosing has hrest
      exact ⟨rfl, hk⟩

end Layout

/-- The kind of value that begins with a character. -/
def kindOf (c : Char) : Nat :=
  match c with
  | 'n' => 0
  | 't' | 'f' => 1
  | '"' => 3
  | '[' => 4
  | '\x7b' => 5
  | c => if c.isDigit then 2 else 6

variable {l : Layout}

theorem kindOf_digit {c : Char} (hc : c.isDigit) : kindOf c = 2 := by
  unfold kindOf
  split
  case h_7 => exact if_pos hc
  all_goals cases hc

/-- The kind of a value shows at the beginning of its text. -/
theorem chars_eq_cons (l : Layout) (depth : Nat) (j : Json) :
    ∃ c v, j.chars l depth = c :: v ∧ kindOf c = j.ctorIdx := by
  cases j with
  | null => exact ⟨_, _, rfl, rfl⟩
  | boolean b =>
    cases b
    · exact ⟨_, _, rfl, rfl⟩
    · exact ⟨_, _, rfl, rfl⟩
  | number n =>
    cases hdigits : Nat.toDigits 10 n with
    | nil => exact absurd hdigits Nat.toDigits_ne_nil
    | cons c v =>
      have hc : c.isDigit := isDigit_of_mem_digits (by rw [hdigits]; exact List.mem_cons_self)
      exact ⟨c, v, hdigits, kindOf_digit hc⟩
  | string s => exact ⟨'"', _, toList_stringText s, rfl⟩
  | array items =>
    cases items with
    | nil => exact ⟨_, _, rfl, rfl⟩
    | cons j js => exact ⟨_, _, rfl, rfl⟩
  | object fields =>
    cases fields with
    | nil => exact ⟨_, _, rfl, rfl⟩
    | cons f fields => exact ⟨_, _, rfl, rfl⟩

theorem ctorIdx_eq_of_append {depth : Nat} {j j' : Json} {k k' : List Char}
    (h : j.chars l depth ++ k = j'.chars l depth ++ k') : j.ctorIdx = j'.ctorIdx := by
  obtain ⟨c, v, hc, hkind⟩ := chars_eq_cons l depth j
  obtain ⟨c', v', hc', hkind'⟩ := chars_eq_cons l depth j'
  rw [hc, hc', List.cons_append, List.cons_append] at h
  obtain rfl := (List.cons.inj h).1
  exact hkind.symm.trans hkind'

/-- No value begins like a closing bracket. -/
theorem chars_opens (l : Layout) (depth : Nat) (j : Json) :
    ∃ c v, j.chars l depth = c :: v ∧ c ≠ ']' ∧ c ≠ '\x7d' := by
  obtain ⟨c, v, hc, hkind⟩ := chars_eq_cons l depth j
  refine ⟨c, v, hc, ?_, ?_⟩
  all_goals
    rintro rfl
    cases j <;> cases hkind

/-- The text of a member of an object. -/
def fieldChars (l : Layout) (depth : Nat) (field : String × Json) : List Char :=
  (stringText field.1).toList ++ ':' :: (l.gap ++ field.2.chars l depth)

theorem fieldChars_opens (l : Layout) (depth : Nat) (field : String × Json) :
    ∃ c v, fieldChars l depth field = c :: v ∧ c ≠ ']' ∧ c ≠ '\x7d' := by
  rw [fieldChars, toList_stringText]
  exact ⟨'"', _, rfl, by decide, by decide⟩

theorem charsItems_eq_map (depth : Nat) (js : List Json) :
    charsItems l depth js = js.map (chars l depth) := by
  induction js with
  | nil => rfl
  | cons j js ih => rw [charsItems, ih, List.map_cons]

theorem charsFields_eq_map (depth : Nat) (fields : List (String × Json)) :
    charsFields l depth fields = fields.map (fieldChars l depth) := by
  induction fields with
  | nil => rfl
  | cons field fields ih =>
    obtain ⟨name, j⟩ := field
    rw [charsFields, ih, List.map_cons]
    rfl

mutual

/-- **A value can be read off its text**, whatever stands behind it that does not go on with a
number. -/
theorem chars_append_inj (hl : l.Blank) (depth : Nat) (j : Json) :
    SelfDelimiting (chars l depth) j := by
  intro j' k k' hk hk' h
  -- values whose texts begin alike are of one kind
  have hkind := ctorIdx_eq_of_append h
  cases j with
  | null =>
    cases j' with
    | null => exact ⟨rfl, List.append_cancel_left h⟩
    | _ => cases hkind
  | boolean b =>
    cases j' with
    | boolean b' =>
      cases b <;> cases b'
      · exact ⟨rfl, List.append_cancel_left h⟩
      · exact absurd (List.cons.inj h).1 (by decide)
      · exact absurd (List.cons.inj h).1 (by decide)
      · exact ⟨rfl, List.append_cancel_left h⟩
    | _ => cases hkind
  | number n =>
    cases j' with
    | number m =>
      obtain ⟨rfl, hrest⟩ := number_append_inj hk hk' h
      exact ⟨rfl, hrest⟩
    | _ => cases hkind
  | string s =>
    cases j' with
    | string t =>
      rw [chars, chars] at h
      obtain ⟨rfl, hrest⟩ := stringText_append_inj h
      exact ⟨rfl, hrest⟩
    | _ => cases hkind
  | array items =>
    cases j' with
    | array items' =>
      rw [chars, chars, charsItems_eq_map, charsItems_eq_map] at h
      obtain ⟨rfl, hrest⟩ := Layout.enclosed_append_inj hl (.inl rfl) (chars_opens l _)
        (items_append_inj hl (depth + 1) items) h
      exact ⟨rfl, hrest⟩
    | _ => cases hkind
  | object fields =>
    cases j' with
    | object fields' =>
      rw [chars, chars, charsFields_eq_map, charsFields_eq_map] at h
      obtain ⟨rfl, hrest⟩ := Layout.enclosed_append_inj hl (.inr rfl) (fieldChars_opens l _)
        (fields_append_inj hl (depth + 1) fields) h
      exact ⟨rfl, hrest⟩
    | _ => cases hkind

theorem items_append_inj (hl : l.Blank) (depth : Nat) (js : List Json) :
    ∀ j ∈ js, SelfDelimiting (chars l depth) j := by
  cases js with
  | nil => exact List.forall_mem_nil _
  | cons j js =>
    exact List.forall_mem_cons.2 ⟨chars_append_inj hl depth j, items_append_inj hl depth js⟩

theorem fields_append_inj (hl : l.Blank) (depth : Nat) (fields : List (String × Json)) :
    ∀ field ∈ fields, SelfDelimiting (fieldChars l depth) field := by
  cases fields with
  | nil => exact List.forall_mem_nil _
  | cons field fields =>
    obtain ⟨name, j⟩ := field
    refine List.forall_mem_cons.2 ⟨?_, fields_append_inj hl depth fields⟩
    rintro ⟨name', j'⟩ k k' hk hk' h
    rw [fieldChars, fieldChars, List.append_assoc, List.append_assoc] at h
    obtain ⟨rfl, hvalue⟩ := stringText_append_inj h
    simp only [List.cons_append, List.cons.injEq, true_and, List.append_assoc] at hvalue
    obtain ⟨rfl, hrest⟩ :=
      chars_append_inj hl depth j j' k k' hk hk' (List.append_cancel_left hvalue)
    exact ⟨rfl, hrest⟩

end

theorem chars_inj (hl : l.Blank) (depth : Nat) {i j : Json}
    (h : i.chars l depth = j.chars l depth) : i = j := by
  have hends : Ends [] := by
    intro c hc
    cases hc
  refine (chars_append_inj hl depth i j [] [] hends hends ?_).1
  rw [h]

/-- **Different values have different compact forms.** -/
theorem compact_inj {i j : Json} : i.compact = j.compact ↔ i = j := by
  refine ⟨fun h => chars_inj Layout.blank_compact 0 ?_, congrArg compact⟩
  rw [← toList_compact, ← toList_compact, h]

/-- **Different values have different pretty forms.** -/
theorem pretty_inj {i j : Json} : i.pretty = j.pretty ↔ i = j := by
  refine ⟨fun h => chars_inj Layout.blank_pretty 0 ?_, congrArg pretty⟩
  rw [← toList_prettyAt, ← toList_prettyAt]
  exact congrArg String.toList h

end Json

end DrakeSyntax
