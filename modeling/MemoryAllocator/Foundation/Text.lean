import Mathlib.Data.List.Basic

/-! Printed text: numerals, fields padded with blanks, and when what was printed can be told
from the text, whatever follows it. -/
namespace Foundation

abbrev Text := List Char

/-- At least `width` characters, blanks in front. -/
def padLeft (width : Nat) (field : Text) : Text :=
  List.replicate (width - field.length) ' ' ++ field

/-- The text of a value gives its key away, and ends where it ends whatever comes next. -/
def Tells {α κ : Type} (print : α → Text) (key : α → κ) (among : α → Prop) : Prop :=
  ∀ a b r s, among a → among b → print a ++ r = print b ++ s → key a = key b ∧ r = s

theorem Tells.list {α κ : Type} {print : α → Text} {key : α → κ} {among : α → Prop}
    (tells : Tells print key among) (nonempty : ∀ a, print a ≠ []) {l m : List α}
    (left : ∀ a ∈ l, among a) (right : ∀ a ∈ m, among a)
    (same : l.flatMap print = m.flatMap print) : l.map key = m.map key := by
  induction l generalizing m with
  | nil =>
      cases m with
      | nil => rfl
      | cons b m =>
          rw [List.flatMap_nil, List.flatMap_cons] at same
          exact absurd (List.append_eq_nil_iff.mp same.symm).1 (nonempty b)
  | cons a l ih =>
      cases m with
      | nil =>
          rw [List.flatMap_nil, List.flatMap_cons] at same
          exact absurd (List.append_eq_nil_iff.mp same).1 (nonempty a)
      | cons b m =>
          rw [List.flatMap_cons, List.flatMap_cons] at same
          obtain ⟨here, rest⟩ := tells a b _ _ (left a List.mem_cons_self)
            (right b List.mem_cons_self) same
          have later := ih (fun c member => left c (List.mem_cons_of_mem a member))
            (fun c member => right c (List.mem_cons_of_mem b member)) rest
          rw [List.map_cons, List.map_cons, here, later]

section
variable {c : Char} {t t' r r' : Text}

theorem before_inj (absent : c ∉ t) (absent' : c ∉ t') (same : t ++ c :: r = t' ++ c :: r') :
    t = t' ∧ r = r' := by
  induction t generalizing t' with
  | nil =>
      cases t' with
      | nil => exact ⟨rfl, (List.cons.inj same).2⟩
      | cons d t' =>
          have head := (List.cons.inj same).1
          exact absurd (head ▸ List.mem_cons_self) absent'
  | cons d t ih =>
      cases t' with
      | nil =>
          have head := (List.cons.inj same).1
          exact absurd (head ▸ List.mem_cons_self) absent
      | cons d' t' =>
          obtain ⟨head, tail⟩ := List.cons.inj same
          obtain ⟨rest, rest'⟩ := ih (fun member => absent (List.mem_cons_of_mem d member))
            (fun member => absent' (List.mem_cons_of_mem d' member)) tail
          exact ⟨congrArg₂ List.cons head rest, rest'⟩

/-- A field: at least one character, and no blank. -/
structure Word (t : Text) : Prop where
  nonempty : t ≠ []
  noBlank : ' ' ∉ t

theorem dropWhile_blanks (count : Nat) (word : Word t) (r : Text) :
    (List.replicate count ' ' ++ (t ++ r)).dropWhile (· == ' ') = t ++ r := by
  induction count with
  | zero =>
      obtain ⟨nonempty, noBlank⟩ := word
      cases t with
      | nil => exact absurd rfl nonempty
      | cons d t =>
          have other : ¬ d = ' ' := fun blank => noBlank (blank ▸ List.mem_cons_self)
          simp [other]
  | succ count ih => simpa [List.replicate_succ] using ih

theorem padLeft_inj {width width' : Nat} (word : Word t) (word' : Word t')
    (same : padLeft width t ++ ' ' :: r = padLeft width' t' ++ ' ' :: r') : t = t' ∧ r = r' := by
  simp only [padLeft, List.append_assoc] at same
  have trimmed := congrArg (List.dropWhile (· == ' ')) same
  rw [dropWhile_blanks _ word, dropWhile_blanks _ word'] at trimmed
  exact before_inj word.noBlank word'.noBlank trimmed

end

theorem digitChar_inj {a b : Nat} (aDigit : a < 16) (bDigit : b < 16)
    (same : a.digitChar = b.digitChar) : a = b := by
  have all : ∀ a < 16, ∀ b < 16, a.digitChar = b.digitChar → a = b := by decide
  exact all a aDigit b bDigit same

theorem toDigits_inj {base : Nat} (large : 1 < base) (small : base ≤ 16) {a b : Nat}
    (same : Nat.toDigits base a = Nat.toDigits base b) : a = b := by
  induction a using Nat.strongRecOn generalizing b with
  | ind a ih =>
      have last : ∀ n, n % base < base := fun n => Nat.mod_lt n (by omega)
      rw [Nat.toDigits_eq_if large, Nat.toDigits_eq_if (n := b) large] at same
      split at same
      · split at same
        · exact digitChar_inj (by omega) (by omega) (List.cons.inj same).1
        · have lengths := congrArg List.length same
          have nonempty := Nat.length_toDigits_pos (b := base) (n := b / base)
          simp only [List.length_append, List.length_singleton] at lengths
          omega
      · split at same
        · have lengths := congrArg List.length same
          have nonempty := Nat.length_toDigits_pos (b := base) (n := a / base)
          simp only [List.length_append, List.length_singleton] at lengths
          omega
        · obtain ⟨front, back⟩ := List.append_inj' same rfl
          have quotient := ih (a / base) (Nat.div_lt_self (by omega) large) front
          have remainder := digitChar_inj (Nat.lt_of_lt_of_le (last a) small)
            (Nat.lt_of_lt_of_le (last b) small) (List.cons.inj back).1
          rw [← Nat.div_add_mod a base, ← Nat.div_add_mod b base, quotient, remainder]

theorem mem_toDigits {base n : Nat} (large : 1 < base) {c : Char}
    (member : c ∈ Nat.toDigits base n) : ∃ d < base, c = d.digitChar := by
  induction n using Nat.strongRecOn with
  | ind n ih =>
      rw [Nat.toDigits_eq_if large] at member
      split at member
      · rename_i digit
        exact ⟨n, digit, List.mem_singleton.mp member⟩
      · rcases List.mem_append.mp member with front | back
        · exact ih (n / base) (Nat.div_lt_self (by omega) large) front
        · exact ⟨n % base, Nat.mod_lt n (by omega), List.mem_singleton.mp back⟩

theorem word_toDigits {base n : Nat} (large : 1 < base) (small : base ≤ 16) :
    Word (Nat.toDigits base n) := by
  refine ⟨Nat.toDigits_ne_nil, ?_⟩
  intro blank
  obtain ⟨d, digit, same⟩ := mem_toDigits large blank
  have none : ∀ d < 16, ' ' ≠ d.digitChar := by decide
  exact none d (by omega) same

end Foundation
