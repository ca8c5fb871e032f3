/-!
# Blank characters

The characters that trimming removes: those with the Unicode property White_Space.

Main results:

- Theorem {lit}`isBlank_of_isDigit`: digits are solid.
- Theorem {lit}`SolidEnds.trim_between`: blanks around a text with solid ends are trimmed, and nothing else.
-/

namespace ExactSimplex
namespace Text

/-- The code point ranges of the Unicode property White_Space, both ends included. -/
def blankRanges : List (Nat × Nat) :=
  [(0x9, 0xD), (0x20, 0x20), (0x85, 0x85), (0xA0, 0xA0), (0x1680, 0x1680), (0x2000, 0x200A),
   (0x2028, 0x2029), (0x202F, 0x202F), (0x205F, 0x205F), (0x3000, 0x3000)]

/-- Whether a character has the Unicode property White_Space. -/
def isBlank (c : Char) : Bool :=
  blankRanges.any fun range => decide (range.1 ≤ c.toNat) && decide (c.toNat ≤ range.2)

/-- The text without the blank characters at its two ends. -/
def trim (text : List Char) : List Char :=
  ((text.dropWhile isBlank).reverse.dropWhile isBlank).reverse

/-- Digits are solid. -/
theorem isBlank_of_isDigit {c : Char} (h : c.isDigit = true) : isBlank c = false := by
  have hrange : 48 ≤ c.toNat ∧ c.toNat ≤ 57 := Char.isDigit_iff_toNat.mp h
  simp only [isBlank, blankRanges, List.any_cons, List.any_nil, Bool.or_false, Bool.or_eq_false_iff,
    Bool.and_eq_false_iff, decide_eq_false_iff_not]
  omega

/-- All characters of the text are blank. -/
def Blank (text : List Char) : Prop := ∀ c ∈ text, isBlank c = true

-- Along the text; the characters of a finite type could be gone through as well, but not in practice.
instance (text : List Char) : Decidable (Blank text) :=
  List.decidableBAll (fun c => isBlank c = true) text

theorem blank_nil : Blank [] :=
  nofun

/-- The first and the last character of the text, where it has any, are solid. -/
structure SolidEnds (text : List Char) : Prop where
  first : ∀ c, text.head? = some c → isBlank c = false
  last : ∀ c, text.getLast? = some c → isBlank c = false

/-- Blanks before a text that starts solid are dropped. -/
theorem dropWhile_blank {space text : List Char} (hspace : Blank space)
    (hfirst : ∀ c, text.head? = some c → isBlank c = false) :
    (space ++ text).dropWhile isBlank = text := by
  rw [List.dropWhile_append_of_pos hspace]
  cases text with
  | nil => rfl
  | cons c rest => simp [hfirst c rfl]

namespace SolidEnds

/-- A text is solid at its ends if all of its characters are solid. -/
theorem of_forall {text : List Char} (h : ∀ c ∈ text, isBlank c = false) : SolidEnds text where
  first c hc := h c (List.mem_of_head? hc)
  last c hc := h c (List.mem_of_getLast? hc)

/-- What stands between two solid texts does not matter. -/
theorem append {left right : List Char} (hleft : SolidEnds left) (hright : SolidEnds right)
    (hleftNe : left ≠ []) (hrightNe : right ≠ []) (middle : List Char) :
    SolidEnds (left ++ (middle ++ right)) where
  first c hc := by
    rw [List.head?_append, List.head?_eq_some_head hleftNe, Option.some_or,
      ← List.head?_eq_some_head hleftNe] at hc
    exact hleft.first c hc
  last c hc := by
    rw [List.getLast?_append, List.getLast?_append, List.getLast?_eq_some_getLast hrightNe,
      Option.some_or, Option.some_or, ← List.getLast?_eq_some_getLast hrightNe] at hc
    exact hright.last c hc

/-- Blanks around a text with solid ends are trimmed, and nothing else. -/
theorem trim_between {before text after : List Char} (h : SolidEnds text) (hbefore : Blank before)
    (hafter : Blank after) : trim (before ++ (text ++ after)) = text := by
  have hback : Blank after.reverse := fun c hc => hafter c (List.mem_reverse.mp hc)
  cases text with
  | nil =>
      have hall : Blank (before ++ after) := fun c hc =>
        (List.mem_append.mp hc).elim (hbefore c) (hafter c)
      have hnil : (before ++ after ++ []).dropWhile isBlank = [] := dropWhile_blank hall nofun
      rw [List.append_nil] at hnil
      rw [List.nil_append, trim, hnil]
      rfl
  | cons c rest =>
      have hfront : (before ++ (c :: rest ++ after)).dropWhile isBlank = c :: rest ++ after :=
        dropWhile_blank hbefore h.first
      have hrear : (after.reverse ++ (c :: rest).reverse).dropWhile isBlank = (c :: rest).reverse :=
        dropWhile_blank hback fun d hd => h.last d (by rwa [List.head?_reverse] at hd)
      rw [trim, hfront, List.reverse_append, hrear, List.reverse_reverse]

end SolidEnds

example : " \t\n\r\x0c".toList.all isBlank = true := by decide

end Text
end ExactSimplex
