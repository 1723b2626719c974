import Lisplet.Machine
import Lisplet.Proofs.Input.Decoding
import Lisplet.Text.Words
/-!
# Lines do not depend on how bytes arrive

A text that arrives as bytes is handed out line by line (`linesOf`). How it is cut into chunks and which reads fail on the way
makes no difference: a call for a line either fails with the next failing read and leaves the text that is still to come as it
was, or it hands out the first line of this text and leaves the rest (`served_readLine`).

Main statement: of any number of calls, those that do not fail give the lines of the text in order and then nothing more, and
the others fail as the first failing reads do (`answers_of_encoded`).
-/
namespace Lisplet

namespace LineAnswer

/-- Whether asking for a line has failed. -/
def isFailure : LineAnswer → Bool
  | failed _ => true
  | _ => false

/-- The next line, or the end. -/
def ofNext : Option String → LineAnswer
  | some text => line text
  | none => ended

theorem isFailure_ofNext (next : Option String) : (ofNext next).isFailure = false := by
  cases next with
  | none => rfl
  | some text => rfl

/-- What a program gets when it asks for a line. -/
def outcome : LineAnswer → Except Signal (Option String)
  | line text => .ok (some text)
  | ended => .ok none
  | failed message => .error (.fault { code := .readInputFailed, detail := some message })
  | awaiting => .error (.waiting .line)

end LineAnswer

namespace ByteReader

/-! ## Texts line by line -/

/-- The lines of a text: what stands in front of each line feed, without one carriage return at its end, and then what
follows the last line feed, unless nothing does. -/
def linesOf (text : List Char) : List String :=
  let parts := text.splitOn '\n'
  let rest := parts.getLastD []
  parts.dropLast.map (fun line => String.ofList (withoutReturn line)) ++ if rest = [] then [] else [String.ofList rest]

theorem linesOf_line {front : List Char} (hfront : '\n' ∉ front) (rest : List Char) :
    linesOf (front ++ '\n' :: rest) = String.ofList (withoutReturn front) :: linesOf rest := by
  obtain ⟨part, parts, hparts⟩ := List.exists_cons_of_ne_nil (List.splitOn_ne_nil '\n' rest)
  have hsplit : (front ++ '\n' :: rest).splitOn '\n' = front :: part :: parts := by
    rw [List.splitOn_append_cons_self, List.splitOn_eq_singleton hfront, hparts]
    rfl
  rw [linesOf, linesOf, hsplit, hparts]
  rfl

theorem linesOf_rest {text : List Char} (htext : '\n' ∉ text) :
    linesOf text = if text = [] then [] else [String.ofList text] := by
  simp [linesOf, List.splitOn_eq_singleton htext]

/-- A text has a first line that ends in a line feed, or no line feed at all. -/
theorem line_or_rest (text : List Char) :
    (∃ front rest, '\n' ∉ front ∧ text = front ++ '\n' :: rest) ∨ '\n' ∉ text := by
  by_cases h : '\n' ∈ text
  · obtain ⟨front, rest, htext, hfront⟩ := List.eq_append_cons_of_mem h
    exact .inl ⟨front, rest, hfront, htext⟩
  · exact .inr h

theorem handOut_line {front : List Char} (hfront : '\n' ∉ front) (rest : List Char) :
    handOut (front ++ '\n' :: rest) = (.line (String.ofList (withoutReturn front)), rest) := by
  have hrun : ∀ c ∈ front, (c != '\n') = true := fun c hc => bne_iff_ne.2 fun he => hfront (he ▸ hc)
  have hstop : ∀ c, ('\n' :: rest).head? = some c → (c != '\n') = false := by simp
  obtain ⟨htake, hdrop⟩ := Text.takeWhile_run hrun hstop
  simp only [handOut, htake, hdrop]

theorem handOut_rest {text : List Char} (htext : '\n' ∉ text) :
    handOut text = (if text = [] then .ended else .line (String.ofList text), []) := by
  have hrun : ∀ c ∈ text, (c != '\n') = true := fun c hc => bne_iff_ne.2 fun he => htext (he ▸ hc)
  have hstop : ∀ c, ([] : List Char).head? = some c → (c != '\n') = false := nofun
  obtain ⟨htake, hdrop⟩ := Text.takeWhile_run hrun hstop
  rw [List.append_nil] at htake hdrop
  simp only [handOut, htake, hdrop, List.isEmpty_iff]
  split
  · rfl
  · rfl

/-- Handing out takes the first line off a text. -/
theorem handOut_linesOf (text : List Char) :
    (handOut text).1 = .ofNext (linesOf text).head? ∧ linesOf (handOut text).2 = (linesOf text).tail := by
  rcases line_or_rest text with ⟨front, rest, hfront, rfl⟩ | htext
  · rw [handOut_line hfront, linesOf_line hfront]
    exact ⟨rfl, rfl⟩
  · rw [handOut_rest htext, linesOf_rest htext]
    split
    · exact ⟨rfl, rfl⟩
    · exact ⟨rfl, rfl⟩

/-- A whole line is handed out whatever follows. -/
theorem handOut_append {text : List Char} (h : '\n' ∈ text) (more : List Char) :
    handOut (text ++ more) = ((handOut text).1, (handOut text).2 ++ more) := by
  rcases line_or_rest text with ⟨front, rest, hfront, rfl⟩ | htext
  · rw [List.append_assoc, List.cons_append, handOut_line hfront, handOut_line hfront]
  · exact absurd h htext

end ByteReader

/-! ## Reads -/

namespace Read

/-- The bytes that reads bring until the end, which is marked by a chunk of no bytes. -/
def bytes : List Read → List UInt8
  | [] => []
  | failed _ :: reads => bytes reads
  | chunk front :: reads => if front.isEmpty then [] else front ++ bytes reads

/-- How the reads in front of the end fail, one after another. -/
def refusals : List Read → List String
  | [] => []
  | failed message :: reads => message :: refusals reads
  | chunk front :: reads => if front.isEmpty then [] else refusals reads

/-- The text that reads bring behind an unfinished character. -/
def text (u : Option Text.Unfinished) (reads : List Read) : List Char :=
  let (cs, u') := Text.decodeBytes u (bytes reads)
  cs ++ Text.decodeEnd u'

theorem text_none (reads : List Read) : text none reads = Text.decode (bytes reads) := rfl

theorem text_chunk (u : Option Text.Unfinished) {front : List UInt8} (hfront : front.isEmpty = false)
    (reads : List Read) : text u (.chunk front :: reads) =
      (Text.decodeBytes u front).1 ++ text (Text.decodeBytes u front).2 reads := by
  simp [text, bytes, hfront, Text.decodeBytes_append]

end Read

namespace ByteReader

/-! ## One call -/

/-- The text that a reader has not handed out yet. -/
def text (r : ByteReader) : List Char := if r.ended then r.pending else r.pending ++ Read.text r.unfinished r.reads

/-- How reads of a reader will fail. -/
def refusals (r : ByteReader) : List String := if r.ended then [] else Read.refusals r.reads

/-- A reader whose reads come to an end. -/
def Finite (r : ByteReader) : Prop := r.ended = true ∨ r.live = false ∨ .chunk [] ∈ r.reads

/-- What a call for a line gives when a text is still to come and reads will fail: it fails with the first of these, or
hands out of the text. -/
inductive Served (text : List Char) (refusals : List String) : LineAnswer × ByteReader → Prop
  | refused {message : String} {r : ByteReader} : refusals = message :: r.refusals → r.text = text → r.Finite →
      Served text refusals (.failed message, r)
  | answered {r : ByteReader} : r.refusals = refusals → r.text = (handOut text).2 → r.Finite →
      Served text refusals ((handOut text).1, r)

/-- All that is left is handed out at the end. -/
theorem served_ended (pending : List Char) (u : Option Text.Unfinished) (reads : List Read) (live : Bool) :
    Served pending [] (take ⟨pending, u, true, reads, live⟩) :=
  .answered rfl rfl (.inl rfl)

/-- A whole line that has arrived is handed out at once. -/
theorem served_line {pending : List Char} (hline : '\n' ∈ pending) (u : Option Text.Unfinished) {reads : List Read}
    {live : Bool} (hfinite : live = false ∨ .chunk [] ∈ reads) :
    Served (pending ++ Read.text u reads) (Read.refusals reads) (take ⟨pending, u, false, reads, live⟩) := by
  have hout := handOut_append hline (Read.text u reads)
  have hanswer : (handOut (pending ++ Read.text u reads)).1 = (handOut pending).1 := by rw [hout]
  show Served _ _ ((handOut pending).1, ⟨(handOut pending).2, u, false, reads, live⟩)
  rw [← hanswer]
  exact .answered rfl (congrArg Prod.snd hout).symm (.inr hfinite)

theorem refill_chunk (pending : List Char) (u : Option Text.Unfinished) (live : Bool) {front : List UInt8}
    (hfront : front.isEmpty = false) (reads : List Read) : refill pending u live (.chunk front :: reads) =
      let (text, u') := Text.decodeBytes u front
      if text.contains '\n' then take ⟨pending ++ text, u', false, reads, live⟩
      else refill (pending ++ text) u' live reads := by
  rw [refill, hfront]
  rfl

theorem served_refill (pending : List Char) (u : Option Text.Unfinished) {live : Bool} {reads : List Read}
    (hfinite : live = false ∨ .chunk [] ∈ reads) :
    Served (pending ++ Read.text u reads) (Read.refusals reads) (refill pending u live reads) := by
  induction reads generalizing pending u with
  | nil =>
    obtain rfl : live = false := by simpa using hfinite
    exact served_ended ..
  | cons read reads ih =>
    cases read with
    | failed message =>
      have hrest : live = false ∨ .chunk [] ∈ reads := by simpa using hfinite
      exact .refused rfl rfl (.inr hrest)
    | chunk front =>
      cases hfront : front.isEmpty with
      | true =>
        obtain rfl := List.isEmpty_iff.1 hfront
        exact served_ended ..
      | false =>
        have hrest : live = false ∨ .chunk [] ∈ reads := by
          refine hfinite.imp_right fun hmem => (List.mem_cons.1 hmem).resolve_left fun he => ?_
          rw [← Read.chunk.inj he] at hfront
          cases hfront
        have hrefusals : Read.refusals (.chunk front :: reads) = Read.refusals reads := by simp [Read.refusals, hfront]
        rw [Read.text_chunk u hfront, ← List.append_assoc, hrefusals, refill_chunk pending u live hfront]
        dsimp only
        -- Reading goes on as long as no line is complete.
        split
        case isTrue hline => exact served_line (List.mem_append_right _ (List.contains_iff_mem.1 hline)) _ hrest
        case isFalse => exact ih _ _ hrest

/-- One call for a line. -/
theorem served_readLine {r : ByteReader} (hr : r.Finite) : Served r.text r.refusals r.readLine := by
  obtain ⟨pending, u, ended, reads, live⟩ := r
  cases ended with
  | true => exact served_ended ..
  | false =>
    have hfinite : live = false ∨ .chunk [] ∈ reads := hr.resolve_left nofun
    simp only [readLine, Bool.false_or]
    split
    case isTrue hline => exact served_line (List.contains_iff_mem.1 hline) u hfinite
    case isFalse => exact served_refill pending u hfinite

/-! ## Any number of calls -/

/-- What calls for a line give in turn. -/
def answers : Nat → ByteReader → List LineAnswer
  | 0, _ => []
  | n + 1, r => r.readLine.1 :: answers n r.readLine.2

/-- The first lines of a row, and ends when there are no more. -/
def deliveries (k : Nat) (lines : List String) : List LineAnswer :=
  (List.range k).map fun i => .ofNext lines[i]?

theorem deliveries_succ (k : Nat) (lines : List String) :
    deliveries (k + 1) lines = .ofNext lines.head? :: deliveries k lines.tail := by
  simp [deliveries, List.range_succ_eq_map, Function.comp_def, List.head?_eq_getElem?]

/-- Of any number of calls, those that do not fail give the lines of the text that is still to come. -/
theorem answers_of_finite {r : ByteReader} (hr : r.Finite) (n : Nat) :
    ∃ k f, k + f = n ∧ f ≤ r.refusals.length ∧
      (answers n r).filter (fun a => !a.isFailure) = deliveries k (linesOf r.text) ∧
      (answers n r).filter LineAnswer.isFailure = (r.refusals.take f).map .failed := by
  induction n generalizing r with
  | zero => exact ⟨0, 0, rfl, Nat.zero_le _, rfl, rfl⟩
  | succ n ih =>
    have hserved := served_readLine hr
    rw [answers]
    generalize r.readLine = x at hserved
    cases hserved with
    | @refused message r' hrefusals htext hr' =>
      obtain ⟨k, f, hn, hf, hlines, hfailures⟩ := ih hr'
      refine ⟨k, f + 1, by omega, ?_, ?_, ?_⟩
      · rw [hrefusals]
        exact Nat.succ_le_succ hf
      · rw [List.filter_cons_of_neg (by exact Bool.false_ne_true), hlines, htext]
      · rw [List.filter_cons_of_pos rfl, hfailures, hrefusals]
        rfl
    | @answered r' hrefusals htext hr' =>
      obtain ⟨k, f, hn, hf, hlines, hfailures⟩ := ih hr'
      obtain ⟨hanswer, hrest⟩ := handOut_linesOf r.text
      have hno : (LineAnswer.ofNext (linesOf r.text).head?).isFailure = false := LineAnswer.isFailure_ofNext _
      refine ⟨k + 1, f, by omega, hrefusals ▸ hf, ?_, ?_⟩
      · rw [hanswer, List.filter_cons_of_pos (by simp [hno]), hlines, htext, hrest, deliveries_succ]
      · rw [hanswer, List.filter_cons_of_neg (by simp [hno]), hfailures, hrefusals]

end ByteReader

/-! ## Programs -/

namespace Eval

/-- What a program gets when it asks for a line again and again. -/
def lineCalls : Nat → Store → List (Except Signal (Option String))
  | 0, _ => []
  | n + 1, s =>
    match readLine s with
    | .ok text s' => .ok text :: lineCalls n s'
    | .error e s' => .error e :: lineCalls n s'

/-- A program gets the next line or the end. -/
theorem lineCalls_ofNext {r r' : ByteReader} {next : Option String} (hread : r.readLine = (.ofNext next, r')) {s : Store}
    (hs : s.input = .bytes r) (n : Nat) :
    lineCalls (n + 1) s = .ok next :: lineCalls n { s with input := .bytes r' } := by
  have hinput : s.input.readLine = (.ofNext next, .bytes r') := by rw [hs, Input.readLine, hread]
  rw [lineCalls, readLine, hinput]
  cases next with
  | none => rfl
  | some text => rfl

/-- A read that fails is a fault of the program. -/
theorem lineCalls_failed {r r' : ByteReader} {message : String} (hread : r.readLine = (.failed message, r')) {s : Store}
    (hs : s.input = .bytes r) (n : Nat) :
    lineCalls (n + 1) s = (LineAnswer.failed message).outcome :: lineCalls n { s with input := .bytes r' } := by
  have hinput : s.input.readLine = (.failed message, .bytes r') := by rw [hs, Input.readLine, hread]
  rw [lineCalls, readLine, hinput]
  rfl

/-- A program gets what its reader answers. -/
theorem lineCalls_of_finite {r : ByteReader} (hr : r.Finite) {s : Store} (hs : s.input = .bytes r) (n : Nat) :
    lineCalls n s = (r.answers n).map LineAnswer.outcome := by
  induction n generalizing r s with
  | zero => rfl
  | succ n ih =>
    have hserved := ByteReader.served_readLine hr
    rw [ByteReader.answers, List.map_cons]
    generalize hread : r.readLine = x at hserved
    cases hserved with
    | @refused message r' _ _ hr' => rw [lineCalls_failed hread hs, ih hr' rfl]
    | @answered r' _ _ hr' =>
      rw [(ByteReader.handOut_linesOf r.text).1] at hread ⊢
      rw [lineCalls_ofNext hread hs, ih hr' rfl]
      cases (ByteReader.linesOf r.text).head? <;> rfl

end Eval

namespace ByteReader

/-- However the bytes of a text are cut into chunks and whichever reads fail on the way: of `n` calls for a line, those that
do not fail give the lines of the text in order, then what follows the last line feed, and then nothing more; the others
fail as the first failing reads do. A program that asks for lines gets just this. -/
theorem answers_of_encoded {text : String} {reads : List Read} {live : Bool}
    (hbytes : Read.bytes reads = text.toByteArray.data.toList) (hend : live = false ∨ .chunk [] ∈ reads) (n : Nat) :
    (∃ k f, k + f = n ∧ f ≤ (Read.refusals reads).length ∧
      ((ofReads reads live).answers n).filter (fun a => !a.isFailure) = deliveries k (linesOf text.toList) ∧
      ((ofReads reads live).answers n).filter LineAnswer.isFailure = ((Read.refusals reads).take f).map .failed) ∧
    ∀ s : Store, s.input = .bytes (ofReads reads live) →
      Eval.lineCalls n s = ((ofReads reads live).answers n).map LineAnswer.outcome := by
  have hfinite : (ofReads reads live).Finite := .inr hend
  have htext : (ofReads reads live).text = text.toList := by
    show Read.text none reads = text.toList
    rw [Read.text_none, hbytes, Text.decode_toByteArray]
  obtain ⟨k, f, hn, hf, hlines, hfailures⟩ := answers_of_finite hfinite n
  exact ⟨⟨k, f, hn, hf, htext ▸ hlines, hfailures⟩, fun s hs => Eval.lineCalls_of_finite hfinite hs n⟩

/-- The bytes of `é`, a carriage return, a line feed and `b`, cut inside the first character, with a read that fails. -/
def brokenReads : List Read := [.chunk [0xC3], .failed "busy", .chunk [0xA9, 0x0D], .chunk [0x0A, 0x62]]

/-- The two lines come whole, each once. -/
theorem answers_of_encoded_brokenReads :
    Read.bytes brokenReads = "é\r\nb".toByteArray.data.toList ∧ linesOf "é\r\nb".toList = ["é", "b"] ∧
    ∃ k f, k + f = 5 ∧ f ≤ 1 ∧
      ((ofReads brokenReads false).answers 5).filter (fun a => !a.isFailure) = deliveries k ["é", "b"] ∧
      ((ofReads brokenReads false).answers 5).filter LineAnswer.isFailure = [.failed "busy"].take f := by
  have hbytes : Read.bytes brokenReads = "é\r\nb".toByteArray.data.toList := by decide
  have hlines : linesOf "é\r\nb".toList = ["é", "b"] := by decide
  obtain ⟨⟨k, f, hn, hf, hdelivered, hfailed⟩, -⟩ := answers_of_encoded hbytes (.inl rfl) 5
  refine ⟨hbytes, hlines, k, f, hn, hf, hlines ▸ hdelivered, ?_⟩
  rw [hfailed, List.map_take]
  rfl

end ByteReader

end Lisplet
