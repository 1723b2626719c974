import Lisplet.Proofs.Reading.Tiling
/-!
# A scan loses nothing

The scan of a body may start anywhere in a text, also inside a character: it goes through units. Its parts carry offsets into the
whole text and stand there as they were written: each begins where the one before it ends (`Covers`, `covers_offsets`). So they are
in order, an expression is the slice of the text at its offset, and what is written between the start and the end of the body can
be put together again.

In a quoted body every quote in front of the closing one is escaped or stands inside an expression (`Covers.quote`), and the
closing one is not (`Covers.not_escaped`). Here a unit is escaped if it follows a backslash that is not escaped itself.

Main statement: the parts of a scan keep everything that was read, and a quoted body ends at the first quote that can end it
(`lossless_of_scanFrom`).
-/
namespace Lisplet

/-! ## Slices -/

namespace Text

/-- Units stand in a whole text from an offset on. -/
def Spans (whole : List UInt16) (o : Int) (mid : List UInt16) : Prop :=
  ∃ front rest, whole = front ++ (mid ++ rest) ∧ o = front.length

variable {whole a b : List UInt16} {o o' : Int}

theorem Spans.append (ha : Spans whole o a) (hb : Spans whole (o + a.length) b) : Spans whole o (a ++ b) := by
  obtain ⟨front, rest, rfl, rfl⟩ := ha
  obtain ⟨front', rest', hwhole, hlength⟩ := hb
  rw [← List.append_assoc] at hwhole
  obtain ⟨rfl, rfl⟩ := List.append_inj hwhole (by rw [List.length_append]; omega)
  exact ⟨front, rest', by simp, rfl⟩

/-- What stands at an offset is determined by its length. -/
theorem Spans.unique (ha : Spans whole o a) (hb : Spans whole o b) (hlength : a.length = b.length) : a = b := by
  obtain ⟨front, rest, rfl, rfl⟩ := ha
  obtain ⟨front', rest', hwhole, hfront⟩ := hb
  obtain ⟨-, hrest⟩ := List.append_inj hwhole (by omega)
  exact List.append_inj_left hrest hlength

theorem Spans.left (h : Spans whole o (a ++ b)) : Spans whole o a := by
  obtain ⟨front, rest, rfl, rfl⟩ := h
  exact ⟨front, b ++ rest, by simp, rfl⟩

theorem Spans.right (h : Spans whole o a) : Spans whole (o + a.length) [] := by
  obtain ⟨front, rest, rfl, rfl⟩ := h
  exact ⟨front ++ a, rest, by simp, by simp⟩

/-- Of two fronts of a text the shorter one is a front of the other. -/
theorem exists_append_of_length_le {front front' rest rest' : List UInt16} (h : front ++ rest = front' ++ rest')
    (hle : front.length ≤ front'.length) : ∃ mid, front' = front ++ mid ∧ rest = mid ++ rest' := by
  rcases List.append_eq_append_iff.1 h with ⟨mid, hfront, hrest⟩ | ⟨mid, hfront, hrest⟩
  · exact ⟨mid, hfront, hrest⟩
  · obtain rfl : mid = [] := List.eq_nil_of_length_eq_zero (by rw [hfront, List.length_append] at hle; omega)
    exact ⟨[], by simpa using hfront.symm, by simpa using hrest.symm⟩

/-- A unit that stands in the slice from an offset on. -/
theorem Spans.exists_append {u : UInt16} (ha : Spans whole o a) (hu : Spans whole o' [u]) (hle : o ≤ o')
    (hlt : o' < o + a.length) : ∃ x y, a = x ++ u :: y ∧ o' = o + x.length := by
  obtain ⟨front, rest, rfl, rfl⟩ := ha
  obtain ⟨front', rest', hwhole, rfl⟩ := hu
  obtain ⟨x, rfl, hrest⟩ := exists_append_of_length_le hwhole (by omega)
  rw [List.length_append] at hlt
  obtain ⟨mid, rfl, hmid⟩ := exists_append_of_length_le hrest.symm (by omega)
  cases mid with
  | nil => simp at hlt
  | cons v y =>
    obtain ⟨rfl, -⟩ := List.cons.inj hmid
    exact ⟨x, y, rfl, by simp⟩

theorem toNat_ofNat {n : Nat} (h : n.isValidChar) : (Char.ofNat n).toNat = n := by
  rw [Char.ofNat, dif_pos h, Char.toNat_ofNatAux]

/-- A unit is told by the character that stands for it. -/
@[simp] theorem charUnit_unitChar (u : UInt16) : charUnit (unitChar u) = u := by
  have hu := u.toNat_lt
  unfold charUnit unitChar
  split
  · rw [toNat_ofNat (by unfold Nat.isValidChar; omega), if_neg (by omega), Nat.add_sub_cancel, UInt16.ofNat_toNat]
  · rw [toNat_ofNat (by unfold Nat.isValidChar; omega), if_pos hu, UInt16.ofNat_toNat]

@[simp] theorem charUnit_comp_unitChar : charUnit ∘ unitChar = id := funext charUnit_unitChar

end Text
/-! ## Escaped characters -/

namespace Format

/-- Whether a text escapes what follows it: it ends with a backslash that is not escaped itself. -/
def escapes (cs : List Char) : Bool := cs.foldl (fun escaped c => c == '\\' && !escaped) false

theorem escapes_append {front : List Char} (h : escapes front = false) (cs : List Char) :
    escapes (front ++ cs) = escapes cs := by
  rw [escapes, List.foldl_append]
  exact congrArg (cs.foldl _) h

theorem escapes_concat {c : Char} (h : c ≠ '\\') (cs : List Char) : escapes (cs ++ [c]) = false := by
  simp [escapes, h]

theorem escapes_cons {c : Char} (h : c ≠ '\\') (cs : List Char) : escapes (c :: cs) = escapes cs :=
  escapes_append (show escapes [c] = false by simp [escapes, h]) cs

theorem escapes_escaped (e : Char) (cs : List Char) : escapes ('\\' :: e :: cs) = escapes cs :=
  escapes_append (show escapes ['\\', e] = false by simp [escapes]) cs

/-- Text between quotes escapes all quotes in it, and nothing behind it. -/
theorem Literal.escapes {format : Bool} {raw value : List Char} (h : Literal format raw value) :
    escapes raw = false ∧ ∀ x y, raw = x ++ '"' :: y → escapes x := by
  induction h with
  | nil => simp [Format.escapes]
  | @char c raw value hquote hslash _ _ ih =>
    refine ⟨by rw [escapes_cons hslash, ih.1], fun x y hxy => ?_⟩
    cases x with
    | nil => exact absurd (List.cons.inj hxy).1 hquote
    | cons d x =>
      obtain ⟨rfl, hrest⟩ : c = d ∧ raw = x ++ '"' :: y := by simpa using hxy
      rw [escapes_cons hslash]
      exact ih.2 x y hrest
  | @escaped e raw value _ ih =>
    refine ⟨by rw [escapes_escaped, ih.1], fun x y hxy => ?_⟩
    rcases x with _ | ⟨d, _ | ⟨e', x⟩⟩
    · simp at hxy
    · obtain ⟨rfl, -⟩ : d = '\\' ∧ e = '"' ∧ raw = y := by simpa [eq_comm] using hxy
      rfl
    · obtain ⟨rfl, rfl, hrest⟩ : d = '\\' ∧ e' = e ∧ raw = x ++ '"' :: y := by simpa [eq_comm] using hxy
      rw [escapes_escaped]
      exact ih.2 x y hrest

/-! ## Parts that cover a text -/

/-- An expression as it stands in a text, between its marks. -/
def marked (source : List UInt16) : List UInt16 :=
  Text.charUnit '#' :: Text.charUnit '\x7b' :: source ++ [Text.charUnit '\x7d']

/-- Whether a part is an expression. -/
def Fragment.isCode : Fragment → Bool
  | text _ => false
  | code _ => true

/-- A part as it is put together again: text as it is, and an expression between its marks. -/
def Fragment.verbatim : Fragment → List UInt16
  | text value => value
  | code source => marked source

/-- What a run of text denotes: itself, or in a quoted body what it is with its escapes resolved. -/
def Denotes (quoted : Bool) (raw value : List UInt16) : Prop :=
  if quoted then ∃ cs, Literal true (raw.map Text.unitChar) cs ∧ value = cs.map Text.charUnit else value = raw

/-- Parts that follow one another through a text from one offset up to another. Text stands there as something that denotes it,
and an expression between its marks, with the offset of its source. -/
inductive Covers (quoted : Bool) (whole : List UInt16) : Int → List (Int × Fragment) → Int → Prop
  | nil {k : Int} : Covers quoted whole k [] k
  | text {k stop : Int} {raw value : List UInt16} {parts : List (Int × Fragment)} : Text.Spans whole k raw → value ≠ [] →
      Denotes quoted raw value → Covers quoted whole (k + raw.length) parts stop →
      Covers quoted whole k ((k, .text value) :: parts) stop
  | code {k stop : Int} {source : List UInt16} {parts : List (Int × Fragment)} : Text.Spans whole k (marked source) →
      Covers quoted whole (k + (marked source).length) parts stop →
      Covers quoted whole k ((k + 2, .code source) :: parts) stop

/-- An offset inside one of the expressions. -/
def InCode (parts : List (Int × Fragment)) (o : Int) : Prop :=
  ∃ start source, (start, Fragment.code source) ∈ parts ∧ start ≤ o ∧ o < start + source.length

/-- An offset at which a unit is escaped, in a body that starts at another one. -/
def Escaped (whole : List UInt16) (start o : Int) : Prop :=
  ∃ before, Text.Spans whole start before ∧ o = start + before.length ∧ escapes (before.map Text.unitChar)

/-- What is escaped behind the front of a body is escaped in the body, if the front leaves no escape open. -/
theorem Escaped.behind {whole front : List UInt16} {k o : Int} (hfront : Text.Spans whole k front)
    (hescapes : Format.escapes (front.map Text.unitChar) = false) (h : Escaped whole (k + front.length) o) :
    Escaped whole k o := by
  obtain ⟨before, hbefore, rfl, hlast⟩ := h
  refine ⟨front ++ before, hfront.append hbefore, by simp [Int.add_assoc], ?_⟩
  rw [List.map_append, escapes_append hescapes, hlast]

theorem InCode.behind {q : Int × Fragment} {parts : List (Int × Fragment)} {o : Int} (h : InCode parts o) :
    InCode (q :: parts) o := by
  obtain ⟨start, source, hmem, hin⟩ := h
  exact ⟨start, source, List.mem_cons_of_mem _ hmem, hin⟩

theorem length_marked (source : List UInt16) : (marked source).length = source.length + 3 := by simp [marked]

theorem map_unitChar_marked (source : List UInt16) :
    (marked source).map Text.unitChar = '#' :: '\x7b' :: source.map Text.unitChar ++ ['\x7d'] := by
  rw [marked, List.map_append]
  rfl

/-- Text was written as something. -/
theorem Denotes.ne_nil {quoted : Bool} {raw value : List UInt16} (h : Denotes quoted raw value) (hvalue : value ≠ []) :
    raw ≠ [] := by
  rintro rfl
  cases quoted with
  | false => exact hvalue h
  | true =>
    obtain ⟨cs, hcs, rfl⟩ := h
    cases hcs
    exact hvalue rfl

namespace Covers

variable {quoted : Bool} {whole : List UInt16} {k stop : Int} {parts : List (Int × Fragment)}

theorem le (h : Covers quoted whole k parts stop) : k ≤ stop := by
  induction h with
  | nil => exact le_rfl
  | text _ _ _ _ ih => omega
  | code _ _ ih => omega

/-- All parts begin behind the first offset or at it. -/
theorem le_offset (h : Covers quoted whole k parts stop) : ∀ q ∈ parts, k ≤ q.1 := by
  induction h with
  | nil => simp
  | text _ _ _ _ ih => exact List.forall_mem_cons.2 ⟨le_rfl, fun q hq => by have := ih q hq; omega⟩
  | code _ _ ih => exact List.forall_mem_cons.2 ⟨by simp, fun q hq => by have := ih q hq; omega⟩

theorem text_ne_nil (h : Covers quoted whole k parts stop) : ∀ o value, (o, Fragment.text value) ∈ parts → value ≠ [] := by
  induction h with
  | nil => simp
  | text _ hne _ _ ih =>
    intro o value hmem
    rcases List.mem_cons.1 hmem with heq | hmem
    · cases (Prod.mk.inj heq).2
      exact hne
    · exact ih o value hmem
  | code _ _ ih =>
    intro o value hmem
    exact ih o value (by simpa using hmem)

theorem ordered (h : Covers quoted whole k parts stop) : parts.Pairwise fun a b => a.1 < b.1 := by
  induction h with
  | nil => exact .nil
  | text _ hne hdenotes hmore ih =>
    have := List.length_pos_iff.2 (hdenotes.ne_nil hne)
    exact List.pairwise_cons.2 ⟨fun q hq => by have := hmore.le_offset q hq; simp only; omega, ih⟩
  | @code k _ source _ _ hmore ih =>
    have := length_marked source
    exact List.pairwise_cons.2 ⟨fun q hq => by have := hmore.le_offset q hq; simp only; omega, ih⟩

/-- An expression is the slice of the text at its offset, and its closing brace is in front of the second offset. -/
theorem spans_code (h : Covers quoted whole k parts stop) :
    ∀ o source, (o, Fragment.code source) ∈ parts → Text.Spans whole o source ∧ o + source.length < stop := by
  induction h with
  | nil => simp
  | text _ _ _ _ ih =>
    intro o source hmem
    exact ih o source (by simpa using hmem)
  | @code k stop here parts hspans hmore ih =>
    intro o source hmem
    rcases List.mem_cons.1 hmem with heq | hmem
    · obtain ⟨rfl, hsource⟩ := Prod.mk.inj heq
      cases hsource
      refine ⟨?_, by have := hmore.le; rw [length_marked] at this; omega⟩
      obtain ⟨front, rest, rfl, rfl⟩ := hspans
      exact ⟨front ++ [Text.charUnit '#', Text.charUnit '\x7b'], Text.charUnit '\x7d' :: rest, by simp [marked], by simp⟩
    · exact ih o source hmem

theorem escapes_marked (source : List UInt16) : escapes ((marked source).map Text.unitChar) = false := by
  rw [map_unitChar_marked]
  exact escapes_concat (by decide) _

/-- What the parts were written as stands between the two offsets, and in a quoted body leaves no escape open. -/
theorem exists_spans (h : Covers quoted whole k parts stop) (hk : Text.Spans whole k []) :
    ∃ all, Text.Spans whole k all ∧ stop = k + all.length ∧ (quoted = true → escapes (all.map Text.unitChar) = false) := by
  induction h with
  | nil => exact ⟨[], hk, by simp, fun _ => rfl⟩
  | @text k stop raw value parts hspans _ hdenotes _ ih =>
    obtain ⟨all, hall, rfl, hescapes⟩ := ih hspans.right
    refine ⟨raw ++ all, hspans.append hall, by simp [Int.add_assoc], ?_⟩
    rintro rfl
    obtain ⟨cs, hcs, -⟩ := hdenotes
    rw [List.map_append, escapes_append hcs.escapes.1, hescapes rfl]
  | @code k stop source parts hspans _ ih =>
    obtain ⟨all, hall, rfl, hescapes⟩ := ih hspans.right
    refine ⟨marked source ++ all, hspans.append hall, by simp [Int.add_assoc], fun hquoted => ?_⟩
    rw [List.map_append, escapes_append (escapes_marked source), hescapes hquoted]

/-- In a raw body the parts as they are put together again make up the text between the two offsets. -/
theorem spans_verbatim (h : Covers false whole k parts stop) (hk : Text.Spans whole k []) :
    Text.Spans whole k (parts.flatMap fun q => q.2.verbatim) ∧ stop = k + (parts.flatMap fun q => q.2.verbatim).length := by
  generalize hq : false = quoted at h
  induction h with
  | nil => exact ⟨hk, by simp⟩
  | text hspans _ hdenotes _ ih =>
    subst hq
    obtain rfl := hdenotes
    obtain ⟨hmore, rfl⟩ := ih hspans.right
    exact ⟨hspans.append hmore, by simp [Fragment.verbatim, Int.add_assoc]⟩
  | code hspans _ ih =>
    obtain ⟨hmore, rfl⟩ := ih hspans.right
    exact ⟨hspans.append hmore, by simp [Fragment.verbatim, Int.add_assoc]⟩

/-! ### Quotes in a quoted body -/

/-- A quote in what stands for it as text. -/
theorem map_quote {raw x y : List UInt16} (h : raw = x ++ Text.charUnit '"' :: y) :
    raw.map Text.unitChar = x.map Text.unitChar ++ '"' :: y.map Text.unitChar := by
  rw [h, List.map_append, List.map_cons]
  rfl

/-- A quote in an expression between its marks stands in its source. -/
theorem exists_of_marked {source x y : List UInt16} (h : marked source = x ++ Text.charUnit '"' :: y) :
    ∃ x' y', x = Text.charUnit '#' :: Text.charUnit '\x7b' :: x' ∧ source = x' ++ Text.charUnit '"' :: y' := by
  rcases x with _ | ⟨u, _ | ⟨v, x⟩⟩
  · exact absurd (List.cons.inj h).1 (by decide)
  · exact absurd (List.cons.inj (List.cons.inj h).2).1 (by decide)
  · obtain ⟨rfl, rfl, hrest⟩ : u = Text.charUnit '#' ∧ v = Text.charUnit '\x7b' ∧
        source ++ [Text.charUnit '\x7d'] = x ++ Text.charUnit '"' :: y := by
      simpa only [marked, List.cons_append, List.cons.injEq, eq_comm] using h
    rcases List.eq_nil_or_concat y with rfl | ⟨y, e, rfl⟩
    · exact absurd (List.append_inj_right' hrest rfl) (by decide)
    · rw [List.concat_eq_append, ← List.cons_append, ← List.append_assoc] at hrest
      exact ⟨x, y, rfl, List.append_inj_left' hrest rfl⟩

/-- A quote between the two offsets is escaped, or it stands in an expression. -/
theorem quote {o : Int} (h : Covers true whole k parts stop) (hle : k ≤ o) (hlt : o < stop)
    (ho : Text.Spans whole o [Text.charUnit '"']) : Escaped whole k o ∨ InCode parts o := by
  generalize hq : true = quoted at h
  induction h with
  | nil => omega
  | @text k stop raw value parts hspans _ hdenotes hmore ih =>
    subst hq
    obtain ⟨cs, hcs, -⟩ := hdenotes
    by_cases hhere : o < k + raw.length
    · obtain ⟨x, y, hxy, rfl⟩ := hspans.exists_append ho hle hhere
      refine .inl ⟨x, ?_, rfl, hcs.escapes.2 _ _ (map_quote hxy)⟩
      rw [hxy] at hspans
      exact hspans.left
    · exact (ih (by omega) hlt).imp (.behind hspans hcs.escapes.1) .behind
  | @code k stop source parts hspans hmore ih =>
    by_cases hhere : o < k + (marked source).length
    · obtain ⟨x, y, hxy, rfl⟩ := hspans.exists_append ho hle hhere
      obtain ⟨x, y, rfl, rfl⟩ := exists_of_marked hxy
      exact .inr ⟨k + 2, _, List.mem_cons_self, by simp; omega, by simp; omega⟩
    · exact (ih (by omega) hlt).imp (.behind hspans (escapes_marked source)) .behind

/-- No backslash in front of the second offset escapes what stands there, and no expression goes that far. -/
theorem not_escaped (h : Covers true whole k parts stop) (hk : Text.Spans whole k []) :
    ¬ Escaped whole k stop ∧ ¬ InCode parts stop := by
  refine ⟨?_, ?_⟩
  · rintro ⟨before, hbefore, hlength, hescapes⟩
    obtain ⟨all, hall, rfl, hnone⟩ := h.exists_spans hk
    obtain rfl := hbefore.unique hall (by omega)
    rw [hnone rfl] at hescapes
    cases hescapes
  · rintro ⟨start, source, hmem, -, hlt⟩
    have := (h.spans_code start source hmem).2
    omega

end Covers

/-! ## The parts of a scan -/

/-- What a piece says of how it is written: text is not empty, and it is what it was written as, with escapes in a quoted body. -/
def Piece.Denoted (quoted : Bool) : Piece → Prop
  | .text raw value => value ≠ [] ∧ if quoted then Literal true raw value else value = raw
  | .code _ => True

theorem value_eq_of_textRun_raw {cs raw value : List Char} {stop : Stop} (h : textRun false cs = (raw, value, stop)) :
    value = raw := by
  generalize hq : false = quoted at h
  fun_induction textRun quoted cs generalizing raw value <;> simp_all

/-- A run of text that does not break off denotes what it was written as. -/
theorem denoted_literal {quoted : Bool} {cs raw value : List Char} {stop : Stop}
    (h : textRun quoted cs = (raw, value, stop)) (hs : quoted = false ∨ stop ≠ .ended) :
    ∀ p ∈ literal raw value, p.Denoted quoted := by
  cases value with
  | nil => simp [literal]
  | cons c value =>
    refine List.forall_mem_singleton.2 ⟨by simp, ?_⟩
    cases quoted with
    | true => exact literal_of_textRun h (by simpa using hs)
    | false => exact value_eq_of_textRun_raw h

theorem denoted_of_pieces {quoted : Bool} {cs rest : List Char} {ps : List Piece} (h : pieces quoted cs = .ok (ps, rest)) :
    ∀ p ∈ ps, p.Denoted quoted := by
  fun_induction pieces quoted cs generalizing ps rest with
  | case1 => simp at h
  | case2 cs raw value run hq =>
    obtain ⟨rfl, rfl⟩ := by simpa using h
    exact denoted_literal run (.inl (by simpa using hq))
  | case3 cs raw value left run =>
    obtain ⟨rfl, rfl⟩ := by simpa using h
    exact denoted_literal run (.inr (by simp))
  | case4 => simp at h
  | case5 => simp at h
  | case6 cs raw value left run source left' span more left'' hmore ih =>
    obtain ⟨rfl, rfl⟩ := by simpa using h
    exact List.forall_mem_append.2 ⟨denoted_literal run (.inr (by simp)), List.forall_mem_cons.2 ⟨trivial, ih hmore⟩⟩

/-- A raw body is the whole rest of its text. -/
theorem rest_of_pieces_raw {cs rest : List Char} {ps : List Piece} (h : pieces false cs = .ok (ps, rest)) : rest = [] := by
  generalize hq : false = quoted at h
  fun_induction pieces quoted cs generalizing ps rest with
  | case1 => simp at h
  | case2 => simp_all
  | case3 cs raw value left run => cases hq.trans (quoted_of_textRun_quote run)
  | case4 => simp at h
  | case5 => simp at h
  | case6 cs raw value left run source left' span more left'' hmore ih =>
    obtain ⟨rfl, rfl⟩ := by simpa using h
    exact ih hmore

/-- Units for which the characters of a piece stand make up one part, its offset that of its contents. -/
theorem covers_cons {quoted : Bool} {whole raw : List UInt16} {k stop : Int} {p : Piece} {parts : List (Int × Fragment)}
    (hp : p.Denoted quoted) (hraw : raw.map Text.unitChar = p.written) (hspans : Text.Spans whole k raw)
    (hmore : Covers quoted whole (k + raw.length) parts stop) :
    Covers quoted whole k ((k + p.lead.length, p.fragment) :: parts) stop := by
  cases p with
  | text written value =>
    obtain rfl : raw.map Text.unitChar = written := by simpa [Piece.written, Piece.lead, Piece.body, Piece.tail] using hraw
    obtain ⟨hne, hvalue⟩ := hp
    have hdenotes : Denotes quoted raw (value.map Text.charUnit) := by
      cases quoted with
      | true => exact ⟨value, hvalue, rfl⟩
      | false =>
        obtain rfl : value = raw.map Text.unitChar := hvalue
        simp [Denotes]
    simpa [Piece.lead, Piece.fragment] using Covers.text hspans (by simpa using hne) hdenotes hmore
  | code source =>
    obtain rfl : raw = marked (source.map Text.charUnit) := by
      simpa [Piece.written, Piece.lead, Piece.body, Piece.tail, marked] using
        congrArg (List.map Text.charUnit) hraw
    exact .code hspans hmore

/-- The pieces of a body cover the units that they were made of. -/
theorem covers_offsets {quoted : Bool} {ps : List Piece} (hps : ∀ p ∈ ps, p.Denoted quoted) {mid : List UInt16}
    (hmid : mid.map Text.unitChar = ps.flatMap Piece.written) (front rest : List UInt16) :
    Covers quoted (front ++ (mid ++ rest)) front.length (offsets front.length ps) (front.length + mid.length) := by
  induction ps generalizing front mid with
  | nil =>
    obtain rfl : mid = [] := by simpa using hmid
    simpa [offsets] using Covers.nil
  | cons p ps ih =>
    obtain ⟨raw, mid, rfl, hraw, hmid⟩ := List.map_eq_append_iff.1 hmid
    have hlength : p.written.length = raw.length := by rw [← hraw, List.length_map]
    have hmore := ih (fun p hp => hps p (List.mem_cons_of_mem _ hp)) hmid (front ++ raw)
    simp only [List.length_append, Nat.cast_add, List.append_assoc] at hmore
    rw [offsets, hlength]
    simp only [List.length_append, Nat.cast_add, List.append_assoc, ← Int.add_assoc]
    exact covers_cons (hps p List.mem_cons_self) hraw ⟨front, _, rfl, rfl⟩ hmore

theorem map_snd_offsets (start : Int) (ps : List Piece) : (offsets start ps).map Prod.snd = ps.map Piece.fragment := by
  induction ps generalizing start with
  | nil => rfl
  | cons p ps ih => simp [offsets, ih]

theorem checked_of_scan {quoted : Bool} {cs : List Char} {s : Scan} (h : scan quoted cs = .ok s) :
    s.pieces.any Piece.isCode ∧ s.pieces.any Piece.isBlankCode = false := by
  unfold scan at h
  split at h
  · cases h
  · split at h
    · next hchecked =>
      obtain rfl := Except.ok.inj h
      simpa using hchecked
    · cases h

theorem chain_offsets {behindText : Bool} {ps : List Piece} (h : Alternate behindText ps) (start : Int) :
    (offsets start ps).IsChain fun a b => a.2.isCode ∨ b.2.isCode := by
  induction ps generalizing behindText start with
  | nil => exact .nil
  | cons p ps ih =>
    cases ps with
    | nil => exact .singleton _
    | cons p' ps =>
      cases p with
      | code source => exact .cons_cons (.inl rfl) (ih h _)
      | text raw value =>
        cases p' with
        | code source => exact .cons_cons (.inr rfl) (ih h.2.2 _)
        | text raw' value' => exact absurd h.2.2.1 (by simp)

/-- An expression among the pieces has an offset. -/
theorem exists_code_offsets (start : Int) {ps : List Piece} (h : ps.any Piece.isCode) :
    ∃ o source, (o, Fragment.code source) ∈ offsets start ps := by
  obtain ⟨p, hp, hcode⟩ := List.any_eq_true.1 h
  cases p with
  | text raw value => cases hcode
  | code source =>
    have hmem := List.mem_map_of_mem hp (f := Piece.fragment)
    rw [← map_snd_offsets start ps] at hmem
    obtain ⟨⟨o, fragment⟩, hmem, rfl⟩ := List.mem_map.1 hmem
    exact ⟨o, _, hmem⟩

/-- The expressions among the parts are those among the pieces. -/
theorem mem_offsets_code {start o : Int} {source : List UInt16} {ps : List Piece} {us : List UInt16}
    (hus : us.map Text.unitChar = ps.flatMap Piece.written) (h : (o, Fragment.code source) ∈ offsets start ps) :
    Piece.code (source.map Text.unitChar) ∈ ps := by
  have hmem : Fragment.code source ∈ ps.map Piece.fragment := by
    rw [← map_snd_offsets start ps]
    exact List.mem_map_of_mem h
  obtain ⟨p, hp, hfragment⟩ := List.mem_map.1 hmem
  cases p with
  | text raw value => cases hfragment
  | code written =>
    obtain rfl : written.map Text.charUnit = source := Fragment.code.inj hfragment
    have hback : ∀ c ∈ written, Text.unitChar (Text.charUnit c) = c := by
      intro c hc
      have hmem : c ∈ us.map Text.unitChar := by
        rw [hus]
        exact List.mem_flatMap.2 ⟨_, hp, by simp [Piece.written, Piece.body, hc]⟩
      obtain ⟨u, -, rfl⟩ := List.mem_map.1 hmem
      rw [Text.charUnit_unitChar]
    rwa [List.map_map, List.map_congr_left (show ∀ c ∈ written, (Text.unitChar ∘ Text.charUnit) c = id c from hback), List.map_id]

/-- A scan from an offset is a scan of the text behind it, a character for each unit. The offset lies in the text. -/
theorem scan_of_scanFrom {whole : List UInt16} {start : Nat} {quoted : Bool} {parts : List (Int × Fragment)} {stop : Int}
    (h : scanFrom start quoted whole = .ok (parts, stop)) :
    start ≤ whole.length ∧ ∃ s, scan quoted ((whole.drop start).map Text.unitChar) = .ok s ∧ parts = offsets start s.pieces ∧
      stop = start + (s.pieces.flatMap Piece.written).length + (closing quoted).length := by
  unfold scanFrom at h
  rw [Int.toNat_natCast] at h
  cases hs : scan quoted ((whole.drop start).map Text.unitChar) with
  | error cause => simp only [hs, reduceCtorEq] at h
  | ok s =>
    refine ⟨?_, s, rfl, ?_⟩
    · by_contra hlt
      rw [List.drop_eq_nil_of_le (by omega)] at hs
      cases quoted <;> simp [scan, pieces, textRun, literal] at hs
    · have hmax : max (start : Int) 0 = start := by omega
      have hfront : (-(start : Int)).toNat = 0 := by omega
      simp only [hs, hmax, hfront] at h
      simpa [eq_comm, Text.codeUnits] using h

/-! ## Nothing is lost -/

/-- What the parts of a scan say of the text that was scanned. -/
structure Lossless (quoted : Bool) (whole : List UInt16) (start : Int) (parts : List (Int × Fragment)) (stop : Int) : Prop where
  ordered : parts.Pairwise fun a b => a.1 < b.1
  text_ne_nil : ∀ o value, (o, Fragment.text value) ∈ parts → value ≠ []
  apart : parts.IsChain fun a b => a.2.isCode ∨ b.2.isCode
  exists_code : ∃ o source, (o, Fragment.code source) ∈ parts
  not_blank : ∀ o source, (o, Fragment.code source) ∈ parts → (source.map Text.unitChar).all Text.isBlank = false
  spans_code : ∀ o source, (o, Fragment.code source) ∈ parts → Text.Spans whole o source
  covers : Covers quoted whole start parts (stop - (closing quoted).length)

/-- A quote that ends a quoted body: it is the first one that is neither escaped nor inside an expression. -/
structure FirstQuote (whole : List UInt16) (start : Int) (parts : List (Int × Fragment)) (o : Int) : Prop where
  le : start ≤ o
  quote : Text.Spans whole o [Text.charUnit '"']
  free : ¬ Escaped whole start o ∧ ¬ InCode parts o
  first : ∀ o', start ≤ o' → o' < o → Text.Spans whole o' [Text.charUnit '"'] → Escaped whole start o' ∨ InCode parts o'

/-- A scan from any offset of a text keeps everything that was read, also where the offset lies inside a character. A raw body
can be put together again from its parts and ends with the text; a quoted body ends behind the first quote that can end it. -/
theorem lossless_of_scanFrom {whole : List UInt16} {start : Nat} {quoted : Bool} {parts : List (Int × Fragment)} {stop : Int}
    (h : scanFrom start quoted whole = .ok (parts, stop)) :
    Lossless quoted whole start parts stop ∧
      (quoted = false → parts.flatMap (fun q => q.2.verbatim) = whole.drop start ∧ stop = whole.length) ∧
      (quoted = true → FirstQuote whole start parts (stop - 1)) := by
  obtain ⟨hstart, ⟨ps, left⟩, hs, rfl, rfl⟩ := scan_of_scanFrom h
  obtain ⟨front, body, rfl, rfl⟩ : ∃ front body, whole = front ++ body ∧ start = front.length :=
    ⟨whole.take start, whole.drop start, by simp, by simp [hstart]⟩
  rw [List.drop_left] at hs ⊢
  have hpieces := Lexer.pieces_of_scan hs
  obtain ⟨hcode, hblank⟩ := checked_of_scan hs
  have hbody := scan_append hs
  rw [List.append_assoc] at hbody
  obtain ⟨mid, rest, rfl, hmid, hrest⟩ := List.map_eq_append_iff.1 hbody
  have hcovers := covers_offsets (denoted_of_pieces hpieces) hmid front rest
  have hbegin : Text.Spans (front ++ (mid ++ rest)) front.length [] := ⟨front, mid ++ rest, rfl, rfl⟩
  have hlength : (ps.flatMap Piece.written).length = mid.length := by rw [← hmid, List.length_map]
  simp only [hlength]
  refine ⟨⟨hcovers.ordered, hcovers.text_ne_nil, chain_offsets (scan_alternate hs).1 _,
    exists_code_offsets _ hcode, fun o source hmem => ?_, fun o source hmem => (hcovers.spans_code o source hmem).1,
    by rwa [Int.add_sub_cancel]⟩, ?_, ?_⟩
  · simpa [Piece.isBlankCode] using List.any_eq_false.1 hblank _ (mem_offsets_code hmid hmem)
  · -- A raw body is read up to the end of the text.
    rintro rfl
    obtain rfl := rest_of_pieces_raw hpieces
    obtain rfl : rest = [] := by simpa [closing] using hrest
    obtain ⟨hspans, hstop⟩ := hcovers.spans_verbatim hbegin
    have hmid : Text.Spans (front ++ (mid ++ [])) front.length mid := ⟨front, [], rfl, rfl⟩
    exact ⟨by simpa using hspans.unique hmid (by omega), by simp [closing]⟩
  · -- What is left behind a quoted body begins with the quote that closes it.
    rintro rfl
    obtain ⟨quote, rest, rfl, hquote, -⟩ := List.map_eq_append_iff.1 hrest
    obtain rfl : quote = [Text.charUnit '"'] := by simpa [closing] using congrArg (List.map Text.charUnit) hquote
    have hclosing : ((closing true).length : Int) = 1 := rfl
    rw [hclosing, Int.add_sub_cancel]
    exact ⟨hcovers.le, ⟨front ++ mid, rest, by simp, by simp⟩, hcovers.not_escaped hbegin,
      fun o' hle hlt ho' => hcovers.quote hle hlt ho'⟩

/-- A body with an escaped quote and with a quoted brace, behind a character of two units. -/
def quotedBody : List UInt16 := Text.codeUnits "😀a\\\"#\x7bf \"\x7d\"\x7db\"c".toList

/-- The parts of that body from inside the first character on: its second half begins the text. -/
def quotedParts : List (Int × Fragment) :=
  [(1, .text (0xDE00 :: Text.codeUnits ['a', '"'])), (7, .code (Text.codeUnits ['f', ' ', '"', '\x7d', '"'])),
    (13, .text (Text.codeUnits ['b']))]

theorem scanFrom_quotedBody : scanFrom (1 : Nat) true quotedBody = .ok (quotedParts, 15) := by
  cbv

theorem lossless_of_scanFrom_quotedBody :
    scanFrom (1 : Nat) true quotedBody = .ok (quotedParts, 15) ∧ Lossless true quotedBody (1 : Nat) quotedParts 15 ∧
      FirstQuote quotedBody (1 : Nat) quotedParts 14 := by
  obtain ⟨hlossless, -, hquote⟩ := lossless_of_scanFrom scanFrom_quotedBody
  exact ⟨scanFrom_quotedBody, hlossless, hquote rfl⟩

end Format

end Lisplet
