import Lisplet.Proofs.Likeness.Views
import Mathlib.Data.List.Forall2
/-!
# What a program can observe

Values that are seen are printed, compared and told apart as before (`Value.write_seen`, `Value.equal_seen`,
`Term.same_seen`), and code and data turn into each other as before (`Term.toValue_seen`, `Value.toTerm_seen`): nothing
a program can observe depends on places.
-/
namespace Lisplet

variable {w : View}

/-! ## Values -/

namespace Value

@[simp] theorem typeName_seen (v : Value) : (v.seen w).typeName = v.typeName := by cases v <;> rfl

@[simp] theorem isProcedure_seen (v : Value) : (v.seen w).isProcedure = v.isProcedure := by cases v <;> rfl

mutual

/-- Identity is told by stamps, names, bits and texts, and none of these has a place in it. -/
@[simp] theorem identical_seen : (v u : Value) → (v.seen w).identical (u.seen w) = v.identical u
  | .list xs, u => by
    cases u with
    | list ys => exact identicalAll_seen xs ys
    | _ => rfl
  | .struct _ _ _, u | .error _ _ _ _, u | .closure _ _, u | .expander _ _ _, u | .number _ _, u | .quaternion _ _, u
  | .string _ _, u | .symbol _, u | .boolean _, u | .structType _, u | .builtin _, u => by cases u <;> rfl

theorem identicalAll_seen : (vs us : List Value) → identicalAll (seenAll w vs) (seenAll w us) = identicalAll vs us
  | [], us => by cases us <;> rfl
  | v :: vs, [] => rfl
  | v :: vs, u :: us => by
    rw [seenAll, seenAll, identicalAll, identicalAll, identical_seen v u, identicalAll_seen vs us]

end

/-- A list that is printed as a quotation is still one, as its first value is a symbol. -/
theorem isQuotation_seen (items : List Value) : isQuotation (items.map (seen w)) = isQuotation items := by
  rcases items with _ | ⟨v, _ | ⟨u, _ | ⟨_, _⟩⟩⟩
  · rfl
  · cases v <;> rfl
  · cases v <;> rfl
  · cases v <;> rfl

mutual

/-- A closure is printed by its name and parameters, so a body that is seen otherwise is not noticed. -/
theorem write_seen (style : Style) : (v : Value) → write style (v.seen w) = write style v
  | .list items => by
    have h := writeAll_seen style items
    rw [seenAll_eq_map] at h
    rw [seen, seenAll_eq_map, write, write, h, listText, listText, isQuotation_seen]
  | .struct stamp type fields => by
    have h := writeAll_seen style fields
    rw [seenAll_eq_map] at h
    rw [seen, seenAll_eq_map, write, write, h]
  | .closure stamp ⟨name, params, body, scope⟩ => rfl
  | .expander _ _ _ | .error _ _ _ _ | .number _ _ | .quaternion _ _ | .string _ _ | .symbol _ | .boolean _
  | .structType _ | .builtin _ => rfl

theorem writeAll_seen (style : Style) : (vs : List Value) → writeAll style (seenAll w vs) = writeAll style vs
  | [] => rfl
  | v :: vs => by rw [seenAll, writeAll, writeAll, write_seen style v, writeAll_seen style vs]

end

@[simp] theorem text_seen (style : Style) (v : Value) : (v.seen w).text style = v.text style := by
  rw [text, text, write_seen]

@[simp] theorem repr_seen (v : Value) : (v.seen w).repr = v.repr := text_seen _ v

@[simp] theorem display_seen (v : Value) : (v.seen w).display = v.display := by
  rw [display_eq_text, display_eq_text, text_seen]

/-- What a call of `display` prints for its arguments. -/
@[simp] theorem displayAll_seen (vs : List Value) : displayAll (vs.map (seen w)) = displayAll vs := by
  rw [displayAll, displayAll, List.map_map]
  congr 2
  funext v
  exact display_seen v

end Value

/-! ## Equality -/

namespace Value

mutual

/-- Equality goes through lists, structs and errors in step, and tells procedures apart by their stamps. -/
theorem equal_seen : (v u : Value) → (v.seen w).equal (u.seen w) = v.equal u
  | .list xs, u => by
    cases u with
    | list ys => exact equalAll_seen xs ys
    | _ => rfl
  | .struct stamp type fields, u => by
    cases u with
    | struct stamp' type' fields' =>
      rw [seen, seen, equal, equal, equalAll_seen fields fields']
    | _ => rfl
  | .error stamp code description payload, u => by
    cases u with
    | error stamp' code' description' payload' =>
      rw [seen, seen, equal, equal, equalPayload_seen payload payload']
    | _ => rfl
  | .closure stamp c, u => by
    rw [equal, ← identical_seen (w := w)]
    rfl
  | .builtin b, u => by
    rw [equal, ← identical_seen (w := w)]
    rfl
  | .expander stamp name t, u => by
    rw [equal, ← identical_seen (w := w)]
    rfl
  | .number _ _, u | .quaternion _ _, u | .string _ _, u | .symbol _, u | .boolean _, u | .structType _, u => by
    cases u <;> rfl

theorem equalAll_seen : (vs us : List Value) → equalAll (seenAll w vs) (seenAll w us) = equalAll vs us
  | [], us => by cases us <;> rfl
  | v :: vs, [] => rfl
  | v :: vs, u :: us => by rw [seenAll, seenAll, equalAll, equalAll, equal_seen v u, equalAll_seen vs us]

theorem equalPayload_seen :
    (p q : Option Value) → equalPayload (seenPayload w p) (seenPayload w q) = equalPayload p q
  | none, q => by cases q <;> rfl
  | some v, none => rfl
  | some v, some u => equal_seen v u

end

end Value

/-- What every view leaves as it is is the same for values that are seen as the same. -/
theorem Value.eq_of_seen {α : Type} {v w : View} (f : Value → α) (hf : ∀ (u : View) (a : Value), f (a.seen u) = f a)
    {a b : Value} (h : a.seen v = b.seen w) : f a = f b := by
  rw [← hf v a, h, hf]

/-! ## Terms -/

namespace Term

/-- A shorthand that is spelled out leaves the list at its own place. -/
@[simp] theorem position_seen (t : Code) : (t.seen w).position = w.place t.position := by
  cases t with
  | nil pos => cases h : w.spells pos <;> simp [View.nil, h, position]
  | marked pos m t => cases h : w.spells pos <;> simp [View.marked, h, position]
  | format pos ps => cases h : w.spells pos <;> simp [View.format, h, position]
  | _ => rfl

/-- A shorthand that is spelled out is a list, and so no more a symbol than before. -/
@[simp] theorem symbol?_seen (t : Code) : (t.seen w).symbol? = t.symbol? := by
  cases t with
  | nil pos => cases h : w.spells pos <;> simp [View.nil, h, symbol?]
  | marked pos m t => cases h : w.spells pos <;> simp [View.marked, h, symbol?]
  | format pos ps => cases h : w.spells pos <;> simp [View.format, h, symbol?]
  | _ => rfl

@[simp] theorem isSymbol_seen (name : String) (t : Code) : (t.seen w).isSymbol name = t.isSymbol name := by
  cases t with
  | nil pos => cases h : w.spells pos <;> simp [View.nil, h, isSymbol]
  | marked pos m t => cases h : w.spells pos <;> simp [View.marked, h, isSymbol]
  | format pos ps => cases h : w.spells pos <;> simp [View.format, h, isSymbol]
  | _ => rfl

mutual

/-- Sameness of terms does not look at places. A view that spells shorthands out would confuse them with their lists. -/
theorem same_seen [w.Short] : (t u : Code) → (t.seen w).same (u.seen w) = t.same u
  | .list pos ts, u => by
    cases u with
    | list pos' us => exact sameAll_seen ts us
    | _ => simp [same]
  | .marked pos m t, u => by
    cases u with
    | marked pos' m' u =>
      rw [seen, seen, w.marked_short, w.marked_short, same, same, same_seen t u]
    | _ => simp [same]
  | .format pos ps, u => by
    cases u with
    | format pos' qs =>
      rw [seen, seen, w.format_short, w.format_short, same, same, sameParts_seen ps qs]
    | _ => simp [same]
  | .embedded pos v, u => by
    cases u with
    | embedded pos' v' => exact Value.identical_seen v v'
    | _ => simp [same]
  | .number _ _, u | .string _ _, u | .symbol _ _, u | .boolean _ _, u | .nil _, u => by cases u <;> simp [same]

theorem sameAll_seen [w.Short] : (ts us : List Code) → sameAll (seenAll w ts) (seenAll w us) = sameAll ts us
  | [], us => by cases us <;> rfl
  | t :: ts, [] => rfl
  | t :: ts, u :: us => by rw [seenAll, seenAll, sameAll, sameAll, same_seen t u, sameAll_seen ts us]

theorem sameParts_seen [w.Short] :
    (ps qs : List (Part Value)) → sameParts (Part.seenAll w ps) (Part.seenAll w qs) = sameParts ps qs
  | [], qs => by cases qs <;> rfl
  | .text s :: ps, [] => rfl
  | .code t :: ps, [] => rfl
  | .text s :: ps, .text s' :: qs => by
    rw [Part.seenAll, Part.seenAll, Part.seen, Part.seen, sameParts, sameParts, sameParts_seen ps qs]
  | .text s :: ps, .code u :: qs => rfl
  | .code t :: ps, .text s :: qs => rfl
  | .code t :: ps, .code u :: qs => by
    rw [Part.seenAll, Part.seenAll, Part.seen, Part.seen, sameParts, sameParts, same_seen t u, sameParts_seen ps qs]

end

mutual

/-- The source of a term is written from its shape alone. -/
theorem write_seen [w.Short] : (t : Code) → write (t.seen w) = write t
  | .list pos ts => by rw [seen, write, write, writeAll_seen ts]
  | .marked pos m t => by rw [seen, w.marked_short, write, write, write_seen t]
  | .format pos ps => by rw [seen, w.format_short, write, write, writeParts_seen ps]
  | .nil pos => by rw [seen, w.nil_short, write, write]
  | .number _ _ | .string _ _ | .symbol _ _ | .boolean _ _ | .embedded _ _ => rfl

theorem writeAll_seen [w.Short] : (ts : List Code) → writeAll (seenAll w ts) = writeAll ts
  | [] => rfl
  | [t] => write_seen t
  | t :: u :: us => by
    have h := writeAll_seen (u :: us)
    have e : ∀ (a b : Code) (cs : List Code), writeAll (a :: b :: cs) = write a ++ ' ' :: writeAll (b :: cs) :=
      fun _ _ _ => rfl
    rw [seenAll] at h
    rw [seenAll, seenAll, e, e, write_seen t, h]

theorem writeParts_seen [w.Short] : (ps : List (Part Value)) → writeParts (Part.seenAll w ps) = writeParts ps
  | [] => rfl
  | .text s :: ps => by rw [Part.seenAll, Part.seen, writeParts, writeParts, writeParts_seen ps]
  | .code t :: ps => by rw [Part.seenAll, Part.seen, writeParts, writeParts, write_seen t, writeParts_seen ps]

end

@[simp] theorem source_seen [w.Short] (t : Code) : (t.seen w).source = t.source := by rw [source, source, write_seen]

/-! ## Code and data -/

/-- The word for the empty list and the empty list are the same data. -/
theorem toValue_nil_seen (pos : Position) : (w.nil pos).toValue = .nil := by
  cases h : w.spells pos <;> simp [View.nil, h, toValue, toValues, Value.nil]

/-- A mark is data as the list of its word and what is marked, spelled out or not. -/
theorem toValue_marked_seen (pos : Position) (m : Marker) (t : Code) :
    (w.marked pos m t).toValue = .list [.symbol m.word, t.toValue] := by
  cases h : w.spells pos <;> simp [View.marked, h, toValue, toValues]

theorem toValues_operands (pos : Position) (ps : List (Part Value)) :
    toValues (ps.map (Part.operand pos)) = partValues ps := by
  induction ps with
  | nil => rfl
  | cons p ps ih => cases p <;> simp [Part.operand, toValues, partValues, toValue, ih]

/-- A format string is data as the call that joins its parts, spelled out or not. -/
theorem toValue_format_seen (pos : Position) (ps : List (Part Value)) :
    (w.format pos ps).toValue = .list (.symbol "string-concat" :: partValues ps) := by
  cases h : w.spells pos <;> simp [View.format, h, toValue, toValues, toValues_operands]

mutual

/-- What is denoted does not depend on the spelling. -/
theorem toValue_seen : (t : Code) → (t.seen w).toValue = t.toValue.seen w
  | .list pos ts => by rw [seen, toValue, toValue, Value.seen, toValues_seen ts]
  | .nil pos => toValue_nil_seen pos
  | .marked pos m t => by
    rw [seen, toValue_marked_seen, toValue, toValue_seen t]
    rfl
  | .format pos ps => by
    rw [seen, toValue_format_seen, toValue, partValues_seen ps]
    rfl
  | .embedded pos v => rfl
  | .number _ _ | .string _ _ | .symbol _ _ | .boolean _ _ => rfl

theorem toValues_seen : (ts : List Code) → toValues (seenAll w ts) = Value.seenAll w (toValues ts)
  | [] => rfl
  | t :: ts => by rw [seenAll, toValues, toValues, Value.seenAll, toValue_seen t, toValues_seen ts]

theorem partValues_seen : (ps : List (Part Value)) → partValues (Part.seenAll w ps) = Value.seenAll w (partValues ps)
  | [] => rfl
  | .text s :: ps => by
    rw [Part.seenAll, Part.seen, partValues, partValues, Value.seenAll, partValues_seen ps]
    rfl
  | .code t :: ps => by
    rw [Part.seenAll, Part.seen, partValues, partValues, Value.seenAll, toValue_seen t, partValues_seen ps]

end

end Term

mutual

/-- Data that is turned to code is placed at one place, which is seen in its turn. -/
theorem Value.toTerm_seen (pos : Position) : (v : Value) → (v.toTerm pos).seen w = (v.seen w).toTerm (w.place pos)
  | .list items => by rw [Value.seen, Value.toTerm, Value.toTerm, Term.seen, Value.toTerms_seen pos items]
  | .closure _ _ | .expander _ _ _ | .struct _ _ _ | .error _ _ _ _ | .number _ _ | .quaternion _ _ | .string _ _
  | .symbol _ | .boolean _ | .structType _ | .builtin _ => rfl

theorem Value.toTerms_seen (pos : Position) :
    (vs : List Value) → Term.seenAll w (Value.toTerms pos vs) = Value.toTerms (w.place pos) (Value.seenAll w vs)
  | [] => rfl
  | v :: vs => by
    rw [Value.seenAll, Value.toTerms, Value.toTerms, Term.seenAll, Value.toTerm_seen pos v, Value.toTerms_seen pos vs]

end

/-! ## Likeness, kind by kind -/

section Likeness

variable {v w : View}

/-- Values that are seen as the same in two views are of one kind and differ in their parts only. -/
inductive Value.Like (v w : View) : Value → Value → Prop
  | number (origin : Origin) (x : Float) : Like v w (.number origin x) (.number origin x)
  | quaternion (stamp : Stamp) (q : Quaternion Float) : Like v w (.quaternion stamp q) (.quaternion stamp q)
  | string (origin : Origin) (s : String) : Like v w (.string origin s) (.string origin s)
  | symbol (name : String) : Like v w (.symbol name) (.symbol name)
  | boolean (b : Bool) : Like v w (.boolean b) (.boolean b)
  | list {xs ys : List Value} : xs.map (Value.seen v) = ys.map (Value.seen w) → Like v w (.list xs) (.list ys)
  | closure (stamp : Stamp) {c c' : Closure Value} : c.seen v = c'.seen w →
      Like v w (.closure stamp c) (.closure stamp c')
  | expander (stamp : Stamp) (name : String) {t t' : Transformer Value} : t.seen v = t'.seen w →
      Like v w (.expander stamp name t) (.expander stamp name t')
  | structType (type : StructType) : Like v w (.structType type) (.structType type)
  | struct (stamp : Stamp) (type : StructType) {xs ys : List Value} :
      xs.map (Value.seen v) = ys.map (Value.seen w) → Like v w (.struct stamp type xs) (.struct stamp type ys)
  | builtin (b : Builtin) : Like v w (.builtin b) (.builtin b)
  | error (stamp : Stamp) (code : ErrorCode) (description : String) {p q : Option Value} :
      p.map (Value.seen v) = q.map (Value.seen w) →
      Like v w (.error stamp code description p) (.error stamp code description q)

/-- Values that are seen as the same are of one kind and have parts that are. -/
theorem Value.like_of_seen {a b : Value} (h : a.seen v = b.seen w) : Value.Like v w a b := by
  cases a <;> cases b <;> simp at h
  · obtain ⟨rfl, rfl⟩ := h
    exact .number _ _
  · obtain ⟨rfl, rfl⟩ := h
    exact .quaternion _ _
  · obtain ⟨rfl, rfl⟩ := h
    exact .string _ _
  · obtain rfl := h
    exact .symbol _
  · obtain rfl := h
    exact .boolean _
  · exact .list h
  · obtain ⟨rfl, h⟩ := h
    exact .closure _ h
  · obtain ⟨rfl, rfl, h⟩ := h
    exact .expander _ _ h
  · obtain rfl := h
    exact .structType _
  · obtain ⟨rfl, rfl, h⟩ := h
    exact .struct _ _ h
  · obtain rfl := h
    exact .builtin _
  · obtain ⟨rfl, rfl, rfl, h⟩ := h
    exact .error _ _ _ h

/-- Rows of terms that are seen as the same in two views, term by term. -/
abbrev Term.LikeAll (v w : View) : List Code → List Code → Prop :=
  List.Forall₂ fun t u => t.seen v = u.seen w

/-- Terms that are seen as the same in two views, of which the first spells nothing out, are of one kind, or the first is the
list that is seen of a shorthand. -/
inductive Term.Like (v w : View) : Code → Code → Prop
  | number {p q : Position} (x : Float) : Like v w (.number p x) (.number q x)
  | string {p q : Position} (s : String) : Like v w (.string p s) (.string q s)
  | symbol {p q : Position} (name : String) : Like v w (.symbol p name) (.symbol q name)
  | boolean {p q : Position} (b : Bool) : Like v w (.boolean p b) (.boolean q b)
  | nil {p q : Position} : w.spells q = false → Like v w (.nil p) (.nil q)
  | list {p q : Position} {ts us : List Code} : LikeAll v w ts us → Like v w (.list p ts) (.list q us)
  | marked {p q : Position} (m : Marker) {t u : Code} : w.spells q = false → t.seen v = u.seen w →
      Like v w (.marked p m t) (.marked q m u)
  | format {p q : Position} {ps qs : List (Part Value)} : w.spells q = false →
      List.Forall₂ (fun a b => Part.seen v a = Part.seen w b) ps qs → Like v w (.format p ps) (.format q qs)
  | embedded {p q : Position} {a b : Value} : a.seen v = b.seen w → Like v w (.embedded p a) (.embedded q b)
  | nilSpelled {p q : Position} : w.spells q = true → Like v w (.list p []) (.nil q)
  | markedSpelled {p p' q : Position} (m : Marker) {t u : Code} : w.spells q = true → t.seen v = u.seen w →
      Like v w (.list p [.symbol p' m.word, t]) (.marked q m u)
  | formatSpelled {p p' q : Position} {ts : List Code} {qs : List (Part Value)} : w.spells q = true →
      List.Forall₂ (fun t b => t.seen v = (Part.seen w b).operand (w.place q)) ts qs →
      Like v w (.list p (.symbol p' "string-concat" :: ts)) (.format q qs)

theorem forall₂_of_map_eq {α β γ : Type} {f : α → γ} {g : β → γ} {l : List α} {l' : List β} (h : l.map f = l'.map g) :
    List.Forall₂ (fun a b => f a = g b) l l' := by
  rwa [← List.forall₂_eq_eq_eq, List.forall₂_map_left_iff, List.forall₂_map_right_iff] at h

theorem map_eq_of_forall₂ {α β γ : Type} {f : α → γ} {g : β → γ} {l : List α} {l' : List β}
    (h : List.Forall₂ (fun a b => f a = g b) l l') : l.map f = l'.map g := by
  rwa [← List.forall₂_eq_eq_eq, List.forall₂_map_left_iff, List.forall₂_map_right_iff]

theorem Term.likeAll_of_map {ts us : List Code} (h : ts.map (Term.seen v) = us.map (Term.seen w)) : LikeAll v w ts us :=
  forall₂_of_map_eq h

/-- A term that is seen as a list is one, if nothing is spelled out. -/
theorem Term.eq_list_of_seen [v.Short] {t : Code} {pos : Position} {us : List Code} (h : t.seen v = .list pos us) :
    ∃ p ts, t = .list p ts ∧ ts.map (Term.seen v) = us := by
  cases t <;> simp at h
  exact ⟨_, _, rfl, h.2⟩

/-- A term that is seen as a list with a word in front is one. -/
theorem Term.eq_headed_of_seen [v.Short] {t : Code} {pos pos' : Position} {name : String} {us : List Code}
    (h : t.seen v = .list pos (.symbol pos' name :: us)) :
    ∃ p p' ts, t = .list p (.symbol p' name :: ts) ∧ ts.map (Term.seen v) = us := by
  obtain ⟨p, ts, rfl, hts⟩ := Term.eq_list_of_seen h
  obtain ⟨head, ts, rfl, hhead, hrest⟩ := List.map_eq_cons_iff.1 hts
  cases head <;> simp at hhead
  obtain ⟨-, rfl⟩ := hhead
  exact ⟨p, _, ts, rfl, hrest⟩

/-- Terms that are seen as the same are of one kind, unless a shorthand is spelled out on the right. -/
theorem Term.like_of_seen [v.Short] {t u : Code} (h : t.seen v = u.seen w) : Term.Like v w t u := by
  -- What is seen on the left is told by the node on the right, and by whether its place is one that is spelled out.
  cases u with
  | nil q =>
    cases hq : w.spells q with
    | true =>
      rw [Term.seen, w.nil_spelled q hq] at h
      obtain ⟨p, ts, rfl, hts⟩ := Term.eq_list_of_seen h
      obtain rfl := List.map_eq_nil_iff.1 hts
      exact .nilSpelled hq
    | false =>
      rw [Term.seen, w.nil_unspelled q hq] at h
      cases t <;> simp at h
      exact .nil hq
  | marked q m u =>
    cases hq : w.spells q with
    | true =>
      rw [Term.seen, w.marked_spelled q m _ hq] at h
      obtain ⟨p, p', ts, rfl, hts⟩ := Term.eq_headed_of_seen h
      obtain ⟨t, rest, rfl, ht, hrest⟩ := List.map_eq_cons_iff.1 hts
      obtain rfl := List.map_eq_nil_iff.1 hrest
      exact .markedSpelled m hq ht
    | false =>
      rw [Term.seen, w.marked_unspelled q m _ hq] at h
      cases t <;> simp at h
      obtain ⟨-, rfl, ht⟩ := h
      exact .marked _ hq ht
  | format q qs =>
    cases hq : w.spells q with
    | true =>
      rw [Term.seen, w.format_spelled q _ hq] at h
      obtain ⟨p, p', ts, rfl, hts⟩ := Term.eq_headed_of_seen h
      rw [Part.seenAll_eq_map, List.map_map] at hts
      exact .formatSpelled hq (forall₂_of_map_eq hts)
    | false =>
      rw [Term.seen, w.format_unspelled q _ hq] at h
      cases t <;> simp at h
      exact .format hq (forall₂_of_map_eq h.2)
  | number q x =>
    cases t <;> simp at h
    obtain ⟨-, rfl⟩ := h
    exact .number _
  | string q s =>
    cases t <;> simp at h
    obtain ⟨-, rfl⟩ := h
    exact .string _
  | symbol q name =>
    cases t <;> simp at h
    obtain ⟨-, rfl⟩ := h
    exact .symbol _
  | boolean q b =>
    cases t <;> simp at h
    obtain ⟨-, rfl⟩ := h
    exact .boolean _
  | list q us =>
    cases t <;> simp at h
    exact .list (likeAll_of_map h.2)
  | embedded q b =>
    cases t <;> simp at h
    exact .embedded h.2

end Likeness

end Lisplet
