import Mathlib.Data.List.Infix
import ExactSimplex.Proofs.Narrative.Drawing

/-!
# Narratives that do not fit

A printer sends the narrative of a solve in many small writes, several for most events.  A sink with a limited room
refuses the first write that exceeds what is left of it; a shorter one would still fit later, but the printer
sends nothing any more.  So what the sink holds is an initial part of the narrative, cut between two writes, and
the printer fails exactly if the cut leaves something out.

Main results:

- Theorem {lit}`Narrative.Cut.rest_eq_nil_iff`: nothing is left out exactly if all writes fit together.
- Theorem {lit}`Narrative.Printer.foldl_send_limited`: texts sent to a limited sink are cut where its room ends.
- Theorem {lit}`Narrative.Printer.observe_limited`: the same for the events of any run.
- Theorem {lit}`Solver.printed_rooms`: what a limited sink holds of the narrative of a solve.
-/

namespace ExactSimplex

open Calc

namespace Narrative

variable {room : ℕ} {write : List UInt8} {writes kept rest : List (List UInt8)}

/-! ## Cutting a sequence of writes -/

/-- Writes that fit into a room together, and the others, of which the first does not fit any more. -/
structure Cut (room : ℕ) (writes kept rest : List (List UInt8)) : Prop where
  writes_eq : writes = kept ++ rest
  fits : kept.flatten.length ≤ room
  refused : ∀ write ∈ rest.head?, room < kept.flatten.length + write.length

namespace Cut

theorem nil (room : ℕ) : Cut room [] [] [] where
  writes_eq := rfl
  fits := Nat.zero_le room
  refused := by simp

/-- A first write that fits is kept. -/
theorem cons (hfits : write.length ≤ room) (h : Cut (room - write.length) writes kept rest) :
    Cut room (write :: writes) (write :: kept) rest where
  writes_eq := by rw [h.writes_eq, List.cons_append]
  fits := by
    have := h.fits
    rw [List.flatten_cons, List.length_append]
    omega
  refused := by
    intro next hnext
    have := h.refused next hnext
    rw [List.flatten_cons, List.length_append]
    omega

/-- Nothing is kept if the first write does not fit. -/
theorem of_lt (hlarge : room < write.length) (writes : List (List UInt8)) :
    Cut room (write :: writes) [] (write :: writes) where
  writes_eq := rfl
  fits := Nat.zero_le room
  refused := by simpa using hlarge

/-- What is kept is the beginning of what was to be written. -/
theorem flatten_prefix (h : Cut room writes kept rest) : kept.flatten <+: writes.flatten := by
  rw [h.writes_eq, List.flatten_append]
  exact List.prefix_append _ _

/-- Nothing is left out exactly if all writes fit together. -/
theorem rest_eq_nil_iff (h : Cut room writes kept rest) : rest = [] ↔ writes.flatten.length ≤ room := by
  rw [h.writes_eq, List.flatten_append, List.length_append]
  cases rest with
  | nil => simpa using h.fits
  | cons write others =>
      have := h.refused write rfl
      simp only [List.flatten_cons, List.length_append, reduceCtorEq, false_iff]
      omega

/-- Something is left out exactly if there is a write that does not fit after those before it. -/
theorem rest_ne_nil_iff (h : Cut room writes kept rest) :
    rest ≠ [] ↔ ∃ before write after, writes = before ++ write :: after ∧
      room < before.flatten.length + write.length := by
  constructor
  · intro hrest
    cases rest with
    | nil => contradiction
    | cons write others => exact ⟨kept, write, others, h.writes_eq, h.refused write rfl⟩
  · rintro ⟨before, write, after, rfl, hlarge⟩
    rw [ne_eq, h.rest_eq_nil_iff]
    simp only [List.flatten_append, List.flatten_cons, List.length_append]
    omega

end Cut

/-! ## Bytes of texts -/

/-- The bytes of a text. -/
def encoded (text : String) : List UInt8 := text.toUTF8.toList

/-- The loop that lists bytes adds those from its index on. -/
theorem toList_loop (bytes : ByteArray) (start : ℕ) (taken : List UInt8) :
    ByteArray.toList.loop bytes start taken = taken.reverse ++ bytes.data.toList.drop start := by
  fun_induction ByteArray.toList.loop bytes start taken with
  | case1 start taken hlt ih =>
      have hstart : start < bytes.data.toList.length := hlt
      rw [ih, List.drop_eq_getElem_cons hstart, List.reverse_cons, List.append_assoc]
      congr 2
      simp [ByteArray.get!, hlt]
  | case2 start taken hge =>
      have hend : bytes.data.toList.length ≤ start := Nat.le_of_not_lt hge
      rw [List.drop_eq_nil_of_le hend, List.append_nil]

/-- The bytes of a text as a list. -/
theorem encoded_eq (text : String) : encoded text = text.toByteArray.data.toList :=
  toList_loop text.toByteArray 0 []

/-- The bytes of texts are those of the joined text. -/
theorem encoded_join (texts : List String) : encoded (String.join texts) = (texts.map encoded).flatten := by
  induction texts with
  | nil => rw [String.join_nil, encoded_eq, String.toByteArray_empty]; rfl
  | cons text rest ih =>
      rw [String.join_cons, encoded_eq, String.toByteArray_append, ByteArray.toList_data_append, ← encoded_eq,
        ← encoded_eq, ih]
      rfl

/-! ## Printers over sinks with and without a limit -/

namespace Printer

variable {printer : Printer}

/-- A printer that has not failed writes the bytes of a text. -/
theorem send_of_not_failed (hfailed : printer.failed = false) (text : String) :
    printer.send text = match printer.sink.write (encoded text) with
      | some sink => ⟨sink, false⟩
      | none => ⟨printer.sink, true⟩ := by
  rw [send, hfailed, if_neg Bool.false_ne_true]
  rfl

/-- A sink without a limit takes every text. -/
theorem send_unlimited (hfailed : printer.failed = false) (hroom : printer.sink.room = none) (text : String) :
    printer.send text = ⟨⟨none, encoded text :: printer.sink.accepted⟩, false⟩ := by
  rw [send_of_not_failed hfailed, Binary.Sink.write, hroom]

/-- A text that fits is taken, and the room shrinks by it. -/
theorem send_of_le (hfailed : printer.failed = false) (hroom : printer.sink.room = some room) {text : String}
    (hfits : (encoded text).length ≤ room) :
    printer.send text =
      ⟨⟨some (room - (encoded text).length), encoded text :: printer.sink.accepted⟩, false⟩ := by
  simp [send_of_not_failed hfailed, Binary.Sink.write, hroom, hfits]

/-- A text that does not fit is refused, and the sink stays as it is. -/
theorem send_of_lt (hfailed : printer.failed = false) (hroom : printer.sink.room = some room) {text : String}
    (hlarge : room < (encoded text).length) : printer.send text = ⟨printer.sink, true⟩ := by
  have hnone : printer.sink.write (encoded text) = none :=
    Binary.Sink.write_isNone_iff.mpr ⟨room, hroom, hlarge⟩
  rw [send_of_not_failed hfailed, hnone]

/-- A sink without a limit holds all texts, by induction on them. -/
theorem foldl_send_unlimited (texts : List String) (hfailed : printer.failed = false)
    (hroom : printer.sink.room = none) :
    texts.foldl send printer = ⟨⟨none, (texts.map encoded).reverse ++ printer.sink.accepted⟩, false⟩ := by
  induction texts generalizing printer with
  | nil =>
      rcases printer with ⟨⟨room, accepted⟩, failed⟩
      cases hfailed
      cases hroom
      rfl
  | cons text others ih =>
      rw [List.foldl_cons, send_unlimited hfailed hroom, ih rfl rfl]
      simp

/-- Texts sent to a limited sink are cut where its room ends, by induction on them: as long as they fit they are
taken, and once one is refused the printer stays as it is. -/
theorem foldl_send_limited (texts : List String) (hfailed : printer.failed = false)
    (hroom : printer.sink.room = some room) :
    ∃ kept rest, Cut room (texts.map encoded) kept rest ∧
      (texts.foldl send printer).sink.accepted = kept.reverse ++ printer.sink.accepted ∧
      ((texts.foldl send printer).failed = true ↔ rest ≠ []) := by
  induction texts generalizing printer room with
  | nil => exact ⟨[], [], Cut.nil room, rfl, by simp [hfailed]⟩
  | cons text others ih =>
      rw [List.foldl_cons, List.map_cons]
      rcases Nat.lt_or_ge room (encoded text).length with hlarge | hfits
      · rw [send_of_lt hfailed hroom hlarge, foldl_send_failed rfl]
        exact ⟨[], _, Cut.of_lt hlarge _, rfl, by simp⟩
      · rw [send_of_le hfailed hroom hfits]
        rcases @ih _ ⟨⟨some (room - (encoded text).length), encoded text :: printer.sink.accepted⟩, false⟩
          rfl rfl with ⟨kept, rest, hcut, haccepted, hrest⟩
        refine ⟨encoded text :: kept, rest, hcut.cons hfits, ?_, hrest⟩
        rw [haccepted]
        simp

/-- A sink without a limit takes pieces only if all of them can be told. -/
theorem texts_of_tell {pieces : List Piece} {full : Printer} (hfailed : printer.failed = false)
    (hroom : printer.sink.room = none) (h : printer.tell pieces = .ok full) :
    ∃ ready, texts pieces = .ok ready := by
  induction pieces generalizing printer with
  | nil => exact ⟨[], rfl⟩
  | cons piece others ih =>
      rw [tell, hfailed, if_neg Bool.false_ne_true, bind_eq_ok] at h
      rcases h with ⟨text, htext, h⟩
      rw [send_unlimited hfailed hroom] at h
      rcases ih rfl rfl h with ⟨ready, hready⟩
      exact ⟨text :: ready, by rw [texts, htext, hready]; rfl⟩

/-- What a printer without a limit has sent once it has observed events. -/
theorem observe_unlimited {events : List Event} {full : Printer} (h : (fresh none).observe events = .ok full) :
    ∃ ready, texts (events.flatMap pieces) = .ok ready ∧ full = ⟨⟨none, (ready.map encoded).reverse⟩, false⟩ := by
  rw [observe_eq_tell] at h
  rcases texts_of_tell rfl rfl h with ⟨ready, hready⟩
  refine ⟨ready, hready, ?_⟩
  rw [tell_of_texts hready, foldl_send_unlimited ready rfl rfl, Except.ok.injEq] at h
  rw [← h]
  simp [fresh]

/-- What a printer with a limit has sent once it has observed events. -/
theorem observe_limited {events : List Event} {ready : List String}
    (h : texts (events.flatMap pieces) = .ok ready) (room : ℕ) :
    ∃ printer kept rest, (fresh (some room)).observe events = .ok printer ∧
      Cut room (ready.map encoded) kept rest ∧ printer.sink.accepted.reverse = kept ∧
      (printer.finish = none ↔ rest ≠ []) := by
  rcases @foldl_send_limited room (fresh (some room)) ready rfl rfl with ⟨kept, rest, hcut, haccepted, hrest⟩
  refine ⟨ready.foldl send (fresh (some room)), kept, rest, ?_, hcut, ?_, ?_⟩
  · rw [observe_eq_tell, tell_of_texts h]
  · rw [haccepted]
    simp [fresh]
  · rw [← hrest]
    simp [finish]

/-- Finishing successfully returns the sink as it is. -/
theorem eq_sink_of_finish {sink : Binary.Sink} (h : printer.finish = some sink) : sink = printer.sink := by
  unfold finish at h
  split at h
  · cases h
  · exact (Option.some.inj h).symm

end Printer
end Narrative

namespace Solver

open Narrative

variable {A : Arithmetic} {S : Solver} {T : Tableau} {budget : ℕ}

/-- The narrative of a solve is sent to a sink without a limit as a whole.  With any limit the printer observes the
same solve to its end.  Its sink then holds the first writes of that narrative, as many as fit one after the
other, and no later write, however short it is; in particular it holds a prefix of the narrative.  The printer
reports a failure exactly if some write does not fit after those before it, and otherwise the sink holds the whole
narrative. -/
theorem printed_rooms {solved : Solved} (h : S.solve A budget T = .ok solved) :
    (A.holds 1 = true → T.Shaped → (∀ a ∈ T.entries, Fraction.Built A a) →
      ∃ full, (Printer.fresh none).observe solved.events = .ok full) ∧
    ∀ full, (Printer.fresh none).observe solved.events = .ok full →
      full.finish = some full.sink ∧
      (∃ told, narrative solved.events = .ok told ∧ full.sink.bytes = encoded told) ∧
      ∀ room, ∃ printer kept rest, (Printer.fresh (some room)).observe solved.events = .ok printer ∧
        Cut room full.sink.accepted.reverse kept rest ∧
        printer.sink.accepted.reverse = kept ∧
        printer.sink.bytes <+: full.sink.bytes ∧
        (printer.finish = none ↔ ∃ before write after,
          full.sink.accepted.reverse = before ++ write :: after ∧
            room < before.flatten.length + write.length) ∧
        ∀ sink, printer.finish = some sink → sink.bytes = full.sink.bytes := by
  constructor
  · intro hA hT hentries
    rcases S.exists_narrative hA hT hentries h with ⟨told, htold⟩
    rcases bind_eq_ok.mp htold with ⟨ready, hready, -⟩
    exact ⟨_, by rw [Printer.observe_eq_tell, Printer.tell_of_texts hready]⟩
  · intro full hfull
    rcases Printer.observe_unlimited hfull with ⟨ready, hready, rfl⟩
    have hwrites : (ready.map encoded).reverse.reverse = ready.map encoded := List.reverse_reverse _
    refine ⟨rfl, ⟨String.join ready, ?_, ?_⟩, fun room => ?_⟩
    · rw [narrative, hready]
      rfl
    · rw [encoded_join, Binary.Sink.bytes, hwrites]
    · rcases Printer.observe_limited hready room with ⟨printer, kept, rest, hprinter, hcut, hkept, hfinish⟩
      refine ⟨printer, kept, rest, hprinter, ?_, hkept, ?_, ?_, ?_⟩
      · rw [hwrites]
        exact hcut
      · rw [Binary.Sink.bytes, Binary.Sink.bytes, hwrites, hkept]
        exact hcut.flatten_prefix
      · rw [hwrites, hfinish]
        exact hcut.rest_ne_nil_iff
      · intro sink hsink
        have hnone : rest = [] := by
          by_contra hne
          rw [hfinish.mpr hne] at hsink
          cases hsink
        rw [Printer.eq_sink_of_finish hsink, Binary.Sink.bytes, Binary.Sink.bytes, hwrites, hkept, hcut.writes_eq,
          hnone, List.append_nil]

/-- A cost without constraints. -/
def unconstrained : Tableau where
  columns := 1
  constraints := 0
  entries := #[⟨0, 1⟩, ⟨3, 1⟩]

/-- The drawing does not fit.  There is room for the line feed after it, which is not sent. -/
theorem printed_rooms_unconstrained :
    ∃ solved full printer,
      (⟨.simplex, none⟩ : Solver).solve (.wrapping 32) 5 unconstrained = .ok solved ∧
        (Printer.fresh none).observe solved.events = .ok full ∧
        (Printer.fresh (some 40)).observe solved.events = .ok printer ∧
        printer.finish = none ∧ printer.sink.room = some 1 ∧
        printer.sink.bytes = encoded "== simplex ==\nCurrent tableau - itr: 0\n" ∧
        printer.sink.bytes <+: full.sink.bytes := by
  have htold : ((⟨.simplex, none⟩ : Solver).solve (.wrapping 32) 5 unconstrained >>= fun solved =>
      ((Printer.fresh (some 40)).observe solved.events).map fun printer =>
        (printer.finish, printer.sink.room, printer.sink.bytes)) =
      .ok (none, some 1, encoded "== simplex ==\nCurrent tableau - itr: 0\n") := by
    decide +kernel
  rcases bind_eq_ok.mp htold with ⟨solved, hsolved, htold⟩
  rcases printed_rooms hsolved with ⟨hexists, hrooms⟩
  rcases hexists (by decide) (by decide) (Fraction.built_of_reduced (by decide +kernel)) with ⟨full, hfull⟩
  rcases hrooms full hfull with ⟨-, -, hroom⟩
  rcases hroom 40 with ⟨printer, -, -, hprinter, -, -, hprefix, -, -⟩
  rw [hprinter, Except.map, Except.ok.injEq, Prod.mk.injEq, Prod.mk.injEq] at htold
  rcases htold with ⟨hfinish, hleft, hbytes⟩
  exact ⟨solved, full, printer, hsolved, hfull, hprinter, hfinish, hleft, hbytes, hprefix⟩

end Solver
end ExactSimplex
