import ExactSimplex.Proofs.Json.Tokens

/-!
# Spellings of documents

A document has many spellings, which differ in the white space between their tokens.  All of them are read
as the document, whatever follows.  Both writers produce one: on one line without any white space, and over
several lines with line breaks and indentation.

Main results:

- Theorem {lit}`Json.Spells.read`: a spelling is read as its document.
- Theorems {lit}`Json.Spellable.spells_write` and {lit}`Json.Spellable.spells_writePretty`: what is written
  is a spelling.
- Theorems {lit}`Json.Spellable.ofText_write` and {lit}`Json.Spellable.ofText_writePretty`: what is written
  is read back.
-/

namespace ExactSimplex
namespace Json

/-- Nothing but white space. -/
def Blank (space : List Char) : Prop := ∀ c ∈ space, isSpace c = true

theorem blank_nil : Blank [] := nofun

theorem blank_space : Blank [' '] := by
  intro c hc
  rw [List.mem_singleton.mp hc]
  rfl

/-! ## The grammar -/

mutual

/-- The text spells the document. -/
inductive Spells : Json → List Char → Prop
  | null : Spells .null "null".toList
  | yes : Spells (.boolean true) "true".toList
  | no : Spells (.boolean false) "false".toList
  | number {n : Numeral} : n.WellSpelled → Spells (.number n) (writeNumeral n)
  | string {text : List Char} : Spells (.string (some text)) (writeString (some text))
  | emptyArray (space : List Char) : Blank space → Spells (.array []) ('[' :: (space ++ [']']))
  | array (space : List Char) {items : List Json} {text : List Char} : Blank space →
      SpellsItems items text → Spells (.array items) ('[' :: (space ++ text))
  | emptyObject (space : List Char) : Blank space →
      Spells (.object []) ('\x7b' :: (space ++ ['\x7d']))
  | object (space : List Char) {members : List (Option (List Char) × Json)} {text : List Char} :
      Blank space → SpellsMembers members text → Spells (.object members) ('\x7b' :: (space ++ text))

/-- The text spells one or more items and the closing bracket. -/
inductive SpellsItems : List Json → List Char → Prop
  | last (space : List Char) {item : Json} {text : List Char} : Spells item text → Blank space →
      SpellsItems [item] (text ++ (space ++ [']']))
  | more (before after : List Char) {item : Json} {items : List Json} {text rest : List Char} :
      Spells item text → Blank before → Blank after → SpellsItems items rest →
      SpellsItems (item :: items) (text ++ (before ++ ',' :: (after ++ rest)))

/-- The text spells one or more members and the closing brace. -/
inductive SpellsMembers : List (Option (List Char) × Json) → List Char → Prop
  | last (before after space : List Char) {key text : List Char} {value : Json} : Blank before →
      Blank after → Spells value text → Blank space →
      SpellsMembers [(some key, value)]
        (writeString (some key) ++ (before ++ ':' :: (after ++ (text ++ (space ++ ['\x7d'])))))
  | more (before after space space' : List Char) {key text rest : List Char} {value : Json}
      {members : List (Option (List Char) × Json)} : Blank before → Blank after → Spells value text →
      Blank space → Blank space' → SpellsMembers members rest →
      SpellsMembers ((some key, value) :: members)
        (writeString (some key) ++
          (before ++ ':' :: (after ++ (text ++ (space ++ ',' :: (space' ++ rest))))))

end

/-! ## White space and the ends of tokens -/

/-- The text begins with a token. -/
def StartsSolid (text : List Char) : Prop := ∃ c rest, text = c :: rest ∧ isSpace c = false

/-- White space before a token is skipped, and nothing else. -/
theorem skipSpace_blank {space : List Char} (text : List Char) (hspace : Blank space)
    (htext : StartsSolid text) :
    skipSpace (space ++ text) = text := by
  rcases htext with ⟨c, rest, rfl, hc⟩
  exact skipSpace_append hspace fun d hd => by
    obtain rfl : c = d := Option.some.inj hd
    exact hc

/-- White space and a mark of punctuation do not continue a numeral. -/
theorem endsNumeral_append {space text : List Char} (hspace : Blank space) (htext : EndsNumeral text) :
    EndsNumeral (space ++ text) := by
  cases space with
  | nil => exact htext
  | cons c space =>
      intro d hd
      obtain rfl : c = d := Option.some.inj hd
      have hc := hspace c List.mem_cons_self
      unfold isSpace at hc
      simp only [Bool.or_eq_true, beq_iff_eq] at hc
      rcases hc with ((rfl | rfl) | rfl) | rfl <;> decide

/-- A numeral ends before a comma or a closing bracket. -/
theorem endsNumeral_mark (mark : Char) (h : mark ∈ [',', ']', '\x7d']) (rest : List Char) :
    EndsNumeral (mark :: rest) := by
  intro c hc
  obtain rfl : mark = c := Option.some.inj hc
  simp only [List.mem_cons, List.not_mem_nil, or_false] at h
  rcases h with rfl | rfl | rfl <;> decide

/-! ## The first characters -/

/-- A spelling begins with a token that is no closing bracket. -/
theorem Spells.head {d : Json} {text : List Char} (h : Spells d text) :
    ∃ c rest, text = c :: rest ∧ isSpace c = false ∧ c ≠ ']' := by
  cases h with
  | null => exact ⟨_, _, rfl, by decide⟩
  | yes => exact ⟨_, _, rfl, by decide⟩
  | no => exact ⟨_, _, rfl, by decide⟩
  | number hn =>
      rcases exists_writeNumeral hn with ⟨c, rest, htext, hc⟩
      refine ⟨c, rest, htext, ?_, ?_⟩
      · unfold isSpace
        rcases hc with hc | rfl
        · simp only [Bool.or_eq_false_iff, beq_eq_false_iff_ne]
          refine ⟨⟨⟨?_, ?_⟩, ?_⟩, ?_⟩ <;> rintro rfl <;> revert hc <;> decide
        · decide
      · rintro rfl
        revert hc
        decide
  | string => exact ⟨_, _, rfl, by decide⟩
  | emptyArray _ _ => exact ⟨_, _, rfl, by decide⟩
  | array _ _ _ => exact ⟨_, _, rfl, by decide⟩
  | emptyObject _ _ => exact ⟨_, _, rfl, by decide⟩
  | object _ _ _ => exact ⟨_, _, rfl, by decide⟩

/-- The spelling of a document begins with a token. -/
theorem Spells.startsSolid {d : Json} {text : List Char} (h : Spells d text) (rest : List Char) :
    StartsSolid (text ++ rest) := by
  rcases h.head with ⟨c, tail, rfl, hc, -⟩
  exact ⟨c, tail ++ rest, rfl, hc⟩

/-- Spelled items do not begin with white space or with the closing bracket. -/
theorem SpellsItems.head {items : List Json} {text : List Char} (h : SpellsItems items text) :
    ∃ c rest, text = c :: rest ∧ isSpace c = false ∧ c ≠ ']' := by
  cases h with
  | last _ hitem _ =>
      rcases hitem.head with ⟨c, rest, rfl, hc⟩
      exact ⟨c, _, rfl, hc⟩
  | more _ _ hitem _ _ _ =>
      rcases hitem.head with ⟨c, rest, rfl, hc⟩
      exact ⟨c, _, rfl, hc⟩

/-- Spelled items begin with a token. -/
theorem SpellsItems.startsSolid {items : List Json} {text : List Char} (h : SpellsItems items text)
    (rest : List Char) : StartsSolid (text ++ rest) := by
  rcases h.head with ⟨c, tail, rfl, hc, -⟩
  exact ⟨c, tail ++ rest, rfl, hc⟩

/-- Spelled members begin with a quote. -/
theorem SpellsMembers.head {members : List (Option (List Char) × Json)} {text : List Char}
    (h : SpellsMembers members text) : ∃ rest, text = '"' :: rest := by
  cases h with
  | last => exact ⟨_, rfl⟩
  | more => exact ⟨_, rfl⟩

/-- Spelled members begin with a token. -/
theorem SpellsMembers.startsSolid {members : List (Option (List Char) × Json)} {text : List Char}
    (h : SpellsMembers members text) (rest : List Char) : StartsSolid (text ++ rest) := by
  rcases h.head with ⟨tail, rfl⟩
  exact ⟨_, tail ++ rest, rfl, by decide⟩

/-! ## Reading spellings -/

/-- A written string is read back, whatever comes after it. -/
theorem readValue_string (fuel : Nat) (text rest : List Char) :
    readValue (fuel + 1) (writeString (some text) ++ rest) = some (.string (some text), rest) := by
  have hread := readString_append text rest
  simp [writeString, readValue, hread]

/-- A written numeral is read back if what comes after it does not continue it. -/
theorem readValue_number {n : Numeral} (hn : n.WellSpelled) (fuel : Nat) {rest : List Char}
    (hrest : EndsNumeral rest) :
    readValue (fuel + 1) (writeNumeral n ++ rest) = some (.number n, rest) := by
  have hread := readNumeral_writeNumeral hn hrest
  rcases exists_writeNumeral hn with ⟨c, text, htext, hc⟩
  rw [htext, List.cons_append] at hread ⊢
  -- No other document begins with a digit or a minus sign.
  have hother : ∀ mark ∈ ['n', 't', 'f', '"', '[', '\x7b'], c ≠ mark := by
    intro mark hmark heq
    rw [heq] at hc
    simp only [List.mem_cons, List.not_mem_nil, or_false] at hmark
    rcases hmark with rfl | rfl | rfl | rfl | rfl | rfl <;> revert hc <;> decide
  rw [readValue, hread]
  · rfl
  · exact nofun
  all_goals
    intro tail heq
    exact hother _ (by decide) (List.cons.inj heq).1

mutual

/-- A spelling is read as its document, whatever follows it, by induction on the spelling. -/
theorem Spells.read {d : Json} {text : List Char} (h : Spells d text) (fuel : Nat)
    (hfuel : text.length ≤ fuel) {rest : List Char} (hrest : EndsNumeral rest) :
    readValue fuel (text ++ rest) = some (d, rest) := by
  obtain ⟨fuel, rfl⟩ : ∃ k, fuel = k + 1 := by
    rcases h.head with ⟨c, tail, rfl, -⟩
    exact ⟨fuel - 1, by rw [List.length_cons] at hfuel; omega⟩
  cases h with
  | null => rfl
  | yes => rfl
  | no => rfl
  | number hn => exact readValue_number hn fuel hrest
  | string => exact readValue_string fuel _ rest
  | emptyArray space hspace =>
      have hskip := skipSpace_blank (']' :: rest) hspace ⟨_, _, rfl, by decide⟩
      simp [readValue, hskip]
  | @array space items text hspace hitems =>
      rcases hitems.head with ⟨c, tail, rfl, hc, hne⟩
      have hskip := skipSpace_blank (c :: tail ++ rest) hspace ⟨_, _, rfl, hc⟩
      have hread := hitems.read fuel (by simp at hfuel ⊢; omega) rest
      rw [List.cons_append] at hskip hread
      simp [readValue, hskip, hne, hread]
  | emptyObject space hspace =>
      have hskip := skipSpace_blank ('\x7d' :: rest) hspace ⟨_, _, rfl, by decide⟩
      simp [readValue, hskip]
  | @object space members text hspace hmembers =>
      rcases hmembers.head with ⟨tail, rfl⟩
      have hskip := skipSpace_blank ('"' :: tail ++ rest) hspace ⟨_, _, rfl, by decide⟩
      have hread := hmembers.read fuel (by simp at hfuel ⊢; omega) rest
      rw [List.cons_append] at hskip hread
      simp [readValue, hskip, hread]

/-- Spelled items are read back, by the same induction as documents. -/
theorem SpellsItems.read {items : List Json} {text : List Char} (h : SpellsItems items text) (fuel : Nat)
    (hfuel : text.length ≤ fuel) (rest : List Char) :
    readItems fuel (text ++ rest) = some (items, rest) := by
  obtain ⟨fuel, rfl⟩ : ∃ k, fuel = k + 1 := by
    rcases h.head with ⟨c, tail, rfl, -⟩
    exact ⟨fuel - 1, by rw [List.length_cons] at hfuel; omega⟩
  cases h with
  | @last space item text hitem hspace =>
      have hends := endsNumeral_append hspace (endsNumeral_mark ']' (by decide) rest)
      have hread := hitem.read fuel (by simp at hfuel; omega) hends
      have hskip := skipSpace_blank (']' :: rest) hspace ⟨_, _, rfl, by decide⟩
      simp [readItems, hread, hskip, bind, Option.bind]
  | @more before after item items text tail hitem hbefore hafter hitems =>
      have hends := endsNumeral_append hbefore
        (endsNumeral_mark ',' (by decide) (after ++ (tail ++ rest)))
      have hread := hitem.read fuel (by simp at hfuel; omega) hends
      have hmark := skipSpace_blank (',' :: (after ++ (tail ++ rest))) hbefore
        ⟨_, _, rfl, by decide⟩
      have hskip := skipSpace_blank _ hafter (hitems.startsSolid rest)
      have hrest := hitems.read fuel (by simp at hfuel; omega) rest
      simp [readItems, hread, hmark, hskip, hrest, bind, Option.bind]

/-- Spelled members are read back, by the same induction as documents. -/
theorem SpellsMembers.read {members : List (Option (List Char) × Json)} {text : List Char}
    (h : SpellsMembers members text) (fuel : Nat) (hfuel : text.length ≤ fuel) (rest : List Char) :
    readMembers fuel (text ++ rest) = some (members, rest) := by
  obtain ⟨fuel, rfl⟩ : ∃ k, fuel = k + 1 := by
    rcases h.head with ⟨tail, rfl⟩
    exact ⟨fuel - 1, by rw [List.length_cons] at hfuel; omega⟩
  cases h with
  | @last before after space key text value hbefore hafter hvalue hspace =>
      have hkey := readString_append key
        (before ++ ':' :: (after ++ (text ++ (space ++ '\x7d' :: rest))))
      have hcolon := skipSpace_blank (':' :: (after ++ (text ++ (space ++ '\x7d' :: rest))))
        hbefore ⟨_, _, rfl, by decide⟩
      have hafterSkip := skipSpace_blank _ hafter (hvalue.startsSolid (space ++ '\x7d' :: rest))
      have hends := endsNumeral_append hspace (endsNumeral_mark '\x7d' (by decide) rest)
      have hread := hvalue.read fuel (by simp at hfuel; omega) hends
      have hskip := skipSpace_blank ('\x7d' :: rest) hspace ⟨_, _, rfl, by decide⟩
      simp [writeString, readMembers, hkey, hcolon, hafterSkip, hread, hskip, bind, Option.bind]
  | @more before after space space' key text tail value members hbefore hafter hvalue hspace hspace'
      hmembers =>
      have hkey := readString_append key
        (before ++ ':' :: (after ++ (text ++ (space ++ ',' :: (space' ++ (tail ++ rest))))))
      have hcolon := skipSpace_blank
        (':' :: (after ++ (text ++ (space ++ ',' :: (space' ++ (tail ++ rest)))))) hbefore
        ⟨_, _, rfl, by decide⟩
      have hafterSkip := skipSpace_blank _ hafter
        (hvalue.startsSolid (space ++ ',' :: (space' ++ (tail ++ rest))))
      have hends := endsNumeral_append hspace
        (endsNumeral_mark ',' (by decide) (space' ++ (tail ++ rest)))
      have hread := hvalue.read fuel (by simp at hfuel; omega) hends
      have hmark := skipSpace_blank (',' :: (space' ++ (tail ++ rest))) hspace
        ⟨_, _, rfl, by decide⟩
      have hskip := skipSpace_blank _ hspace' (hmembers.startsSolid rest)
      have hrest := hmembers.read fuel (by simp at hfuel; omega) rest
      simp [writeString, readMembers, hkey, hcolon, hafterSkip, hread, hmark, hskip, hrest, bind,
        Option.bind]

end

/-- The text of a spelling is the text of its document. -/
theorem Spells.ofText {d : Json} {text : List Char} (h : Spells d text) : ofText text = some d := by
  have hskip : skipSpace text = text := by
    have hsolid := h.startsSolid []
    rw [List.append_nil] at hsolid
    exact skipSpace_blank text blank_nil hsolid
  have hends : EndsNumeral [] := nofun
  have hread := h.read (2 * text.length + 2) (by omega) hends
  rw [List.append_nil] at hread
  unfold Json.ofText
  rw [hskip, hread]
  rfl

/-! ## Writing spellings -/

/-- A document that can be written down: its numerals are well spelled, and its strings are texts. -/
inductive Spellable : Json → Prop
  | null : Spellable .null
  | boolean (value : Bool) : Spellable (.boolean value)
  | number {n : Numeral} : n.WellSpelled → Spellable (.number n)
  | string (text : List Char) : Spellable (.string (some text))
  | array {items : List Json} : (∀ item ∈ items, Spellable item) → Spellable (.array items)
  | object {members : List (Option (List Char) × Json)} : (∀ member ∈ members, member.1.isSome = true) →
      (∀ member ∈ members, Spellable member.2) → Spellable (.object members)

/-- The document of an integer can be written down. -/
theorem Spellable.ofInt (n : Int) : Spellable (ofInt n) :=
  .number (Numeral.wellSpelled_ofInt n)

/-- An object can be written down if the values of its members can. -/
theorem Spellable.ofMembers {members : List (String × Json)}
    (h : ∀ member ∈ members, Spellable member.2) : Spellable (ofMembers members) := by
  refine .object (fun member hmember => ?_) fun member hmember => ?_
  · rcases List.mem_map.mp hmember with ⟨given, -, rfl⟩
    rfl
  · rcases List.mem_map.mp hmember with ⟨given, hgiven, rfl⟩
    exact h given hgiven

theorem blank_newLine (level : Nat) : Blank (newLine level) := by
  intro c hc
  rcases List.mem_cons.mp hc with rfl | hc
  · rfl
  · rw [List.eq_of_mem_replicate hc]
    rfl

section Writers

variable {w : Json → List Char} {after close sep : List Char}

/-- A writer that puts `sep` before every item but the first and `close` before the bracket spells the
items; by induction on those after the first. -/
theorem spellsItems_of_writer (items : List Json → List Char) (hclose : Blank close) (hsep : Blank sep)
    (hnil : items [] = close ++ [']'])
    (hcons : ∀ item rest, items (item :: rest) = ',' :: (sep ++ (w item ++ items rest)))
    {item : Json} {rest : List Json} (h : ∀ i ∈ item :: rest, Spells i (w i)) :
    SpellsItems (item :: rest) (w item ++ items rest) := by
  induction rest generalizing item with
  | nil =>
      rw [hnil]
      exact .last close (h item List.mem_cons_self) hclose
  | cons next rest ih =>
      have htail := ih fun i hi => h i (List.mem_cons_of_mem item hi)
      rw [hcons]
      exact .more [] sep (h item List.mem_cons_self) blank_nil hsep htail

/-- A writer that also puts `after` behind the colons spells the members. -/
theorem spellsMembers_of_writer (members : List (Option (List Char) × Json) → List Char)
    (hafter : Blank after) (hclose : Blank close) (hsep : Blank sep)
    (hnil : members [] = close ++ ['\x7d'])
    (hcons : ∀ key value rest, members ((key, value) :: rest) =
      ',' :: (sep ++ (writeString key ++ ':' :: (after ++ (w value ++ members rest)))))
    (key : List Char) {value : Json} {rest : List (Option (List Char) × Json)}
    (hkeys : ∀ member ∈ rest, member.1.isSome = true) (hvalue : Spells value (w value))
    (hrest : ∀ member ∈ rest, Spells member.2 (w member.2)) :
    SpellsMembers ((some key, value) :: rest)
      (writeString (some key) ++ ':' :: (after ++ (w value ++ members rest))) := by
  induction rest generalizing key value with
  | nil =>
      rw [hnil]
      exact .last [] after close blank_nil hafter hvalue hclose
  | cons next rest ih =>
      rw [List.forall_mem_cons] at hkeys hrest
      rcases next with ⟨- | nextKey, nextValue⟩
      · exact absurd hkeys.1 Bool.false_ne_true
      · have htail := ih nextKey hkeys.2 hrest.1 hrest.2
        rw [hcons]
        exact .more [] after [] sep blank_nil hafter hvalue blank_nil hsep htail

end Writers

/-- What is written on one line is a spelling, by induction on the document. -/
theorem Spellable.spells_write {d : Json} (h : Spellable d) : Spells d d.write := by
  induction h with
  | null => exact .null
  | boolean value =>
      cases value with
      | true => exact .yes
      | false => exact .no
  | number hn => exact .number hn
  | string text => exact .string
  | @array items _ ih =>
      cases items with
      | nil => exact .emptyArray [] blank_nil
      | cons item rest =>
          exact .array [] blank_nil
            (spellsItems_of_writer writeItems blank_nil blank_nil rfl (fun _ _ => rfl) ih)
  | @object members hkeys _ ih =>
      rcases members with - | ⟨⟨- | key, value⟩, rest⟩
      · exact .emptyObject [] blank_nil
      · exact absurd (hkeys _ List.mem_cons_self) Bool.false_ne_true
      · rw [List.forall_mem_cons] at hkeys ih
        exact .object [] blank_nil (spellsMembers_of_writer writeMembers blank_nil blank_nil
          blank_nil rfl (fun _ _ _ => rfl) key hkeys.2 ih.1 ih.2)

/-- What is written over several lines is a spelling, at every level of nesting. -/
theorem Spellable.spells_writePretty {d : Json} (h : Spellable d) (level : Nat) :
    Spells d (d.writePretty level) := by
  induction h generalizing level with
  | null => exact .null
  | boolean value =>
      cases value with
      | true => exact .yes
      | false => exact .no
  | number hn => exact .number hn
  | string text => exact .string
  | @array items _ ih =>
      cases items with
      | nil => exact .emptyArray [] blank_nil
      | cons item rest =>
          have hitems := spellsItems_of_writer (writePrettyItems level) (blank_newLine level)
            (blank_newLine (level + 1)) rfl
            (fun item rest => by rw [← List.append_assoc]; rfl) fun i hi => ih i hi (level + 1)
          rw [writePretty, List.append_assoc]
          exact .array _ (blank_newLine (level + 1)) hitems
  | @object members hkeys _ ih =>
      rcases members with - | ⟨⟨- | key, value⟩, rest⟩
      · exact .emptyObject [] blank_nil
      · exact absurd (hkeys _ List.mem_cons_self) Bool.false_ne_true
      · rw [List.forall_mem_cons] at hkeys ih
        have hmembers := spellsMembers_of_writer (writePrettyMembers level) blank_space
          (blank_newLine level) (blank_newLine (level + 1)) rfl
          (fun key value rest => by rw [← List.append_assoc]; rfl) key hkeys.2 (ih.1 (level + 1))
          fun member hmember => ih.2 member hmember (level + 1)
        rw [writePretty, List.append_assoc]
        exact .object _ (blank_newLine (level + 1)) hmembers

/-- What is written on one line is read back. -/
theorem Spellable.ofText_write {d : Json} (h : Spellable d) : Json.ofText d.write = some d :=
  h.spells_write.ofText

/-- What is written over several lines is read back. -/
theorem Spellable.ofText_writePretty {d : Json} (h : Spellable d) :
    Json.ofText (d.writePretty 0) = some d :=
  (h.spells_writePretty 0).ofText

end Json
end ExactSimplex
