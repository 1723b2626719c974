import Lisplet.Proofs.Likeness.Quotation
import Lisplet.Proofs.Macros.Holes
/-!
# Marks and their long spelling in a template

A mark in a template can be written as the two-element list headed by its word. An unquoted term is a hole in either spelling
and a quoted term is data in either, but only the mark for a quasiquote guards the holes in it: a list headed by `quasiquote`
is a list like any other. So a template with some of its marks written as lists is filled as the template is if both have the
same holes, and only then; they do if no quasiquote is among the marks (`quasiquote_respelled_iff`).
-/
namespace Lisplet

/-- A term behind a mark, which may be written as a list headed by its word if it is one of `ms`. -/
inductive Marked (ms : List Marker) (m : Marker) (t : Code) : Code → Prop
  | short (pos : Position) : Marked ms m t (.marked pos m t)
  | long (pos p : Position) : m ∈ ms → Marked ms m t (.list pos [.symbol p m.word, t])

mutual

/-- The second term is the first one, a template at a depth, with some of the marks in `ms` written as lists. The terms in
the holes of the first one and its format strings are as they were. -/
inductive Respelled (ms : List Marker) : Nat → Code → Code → Prop
  | unquoted {pos : Position} {t u : Code} : Marked ms .unquote t u → Respelled ms 0 (.marked pos .unquote t) u
  | unquotedInside {d : Nat} {pos : Position} {t t' u : Code} :
      Respelled ms d t t' → Marked ms .unquote t' u → Respelled ms (d + 1) (.marked pos .unquote t) u
  | quasiquoted {d : Nat} {pos : Position} {t t' u : Code} :
      Respelled ms (d + 1) t t' → Marked ms .quasiquote t' u → Respelled ms d (.marked pos .quasiquote t) u
  | quoted {d : Nat} {pos : Position} {t t' u : Code} :
      Respelled ms d t t' → Marked ms .quote t' u → Respelled ms d (.marked pos .quote t) u
  | hole {pos p : Position} {t : Code} :
      Respelled ms 0 (.list pos [.symbol p "unquote", t]) (.list pos [.symbol p "unquote", t])
  | holeInside {d : Nat} {pos p : Position} {t t' : Code} :
      Respelled ms d t t' → Respelled ms (d + 1) (.list pos [.symbol p "unquote", t]) (.list pos [.symbol p "unquote", t'])
  | row {d : Nat} {pos : Position} {ts us : List Code} :
      Term.isHole (.list pos ts) = false → RespelledAll ms d ts us → Respelled ms d (.list pos ts) (.list pos us)
  | atom {d : Nat} {t : Code} : (∀ pos m t', t ≠ .marked pos m t') → (∀ pos ts, t ≠ .list pos ts) → Respelled ms d t t

/-- The templates of a row, each with some of its marks written as lists. -/
inductive RespelledAll (ms : List Marker) : Nat → List Code → List Code → Prop
  | nil {d : Nat} : RespelledAll ms d [] []
  | cons {d : Nat} {t u : Code} {ts us : List Code} :
      Respelled ms d t u → RespelledAll ms d ts us → RespelledAll ms d (t :: ts) (u :: us)

end

variable {ms : List Marker}

/-! ## One mark -/

/-- At its depth the second term has the holes that the first one has at another depth, and is filled as the data of the first
one behind a mark. -/
structure MarksAt (m : Marker) (e : Nat) (t : Code) (d : Nat) (u : Code) : Prop where
  holes : u.holes d = t.holes e
  filled : ∀ (r : Recursion) scope,
    r.quasiquote scope d u = (do return Recursion.markedValue m (← r.quasiquote scope e t))

/-- The list that a mark other than unquote is written as is a row like any other. -/
theorem marksAt_row {m : Marker} (hm : m ≠ .unquote) (pos p : Position) (t : Code) (d : Nat) :
    MarksAt m d t d (.list pos [.symbol p m.word, t]) := by
  have hhole : Term.isHole (.list pos [.symbol p m.word, t]) = false :=
    Term.isHole_headed (by cases m <;> simp_all [Marker.word]) pos p [t]
  refine ⟨by simp [Term.holes_list hhole, Term.holesAll, Term.holes], fun r scope => ?_⟩
  simp [quasiquote_list r scope hhole, Recursion.quasiquoteAll, Recursion.quasiquote, Term.toValue, Recursion.markedValue]

theorem marksAt_quasiquoted (pos : Position) (t : Code) (d : Nat) :
    MarksAt .quasiquote (d + 1) t d (.marked pos .quasiquote t) :=
  ⟨by rw [Term.holes], fun r scope => by rw [Recursion.quasiquote]⟩

namespace Marked

variable {t u : Code}

theorem nodes_length_lt {m : Marker} (h : Marked ms m t u) : t.nodes.length < u.nodes.length := by
  cases h with
  | short pos => simp [Term.nodes]
  | long pos p hm => simp [Term.nodes, Term.nodesAll]

/-- An unquoted term at depth zero is a hole in either spelling. -/
theorem unquote_zero (h : Marked ms .unquote t u) :
    u.holes 0 = [t] ∧ ∀ (r : Recursion) scope, r.quasiquote scope 0 u = r.evaluate t scope := by
  cases h with
  | short pos => exact ⟨rfl, fun r scope => by rw [Recursion.quasiquote]⟩
  | long pos p hm => exact ⟨rfl, fun r scope => by rw [Marker.word, Recursion.quasiquote]⟩

theorem unquote_succ (h : Marked ms .unquote t u) (d : Nat) : MarksAt .unquote d t (d + 1) u := by
  cases h with
  | short pos => exact ⟨by rw [Term.holes], fun r scope => by rw [Recursion.quasiquote]⟩
  | long pos p hm => exact ⟨by rw [Marker.word, Term.holes], fun r scope => by rw [Marker.word, Recursion.quasiquote]⟩

/-- A quoted term is data at the same depth in either spelling. -/
theorem quote (h : Marked ms .quote t u) (d : Nat) : MarksAt .quote d t d u := by
  cases h with
  | short pos => exact ⟨by rw [Term.holes], fun r scope => by rw [Recursion.quasiquote]⟩
  | long pos p hm => exact marksAt_row (by decide) pos p t d

/-- The mark for a quasiquote makes what is in it one deeper, and the list does not. -/
theorem quasiquote (h : Marked ms .quasiquote t u) (d : Nat) :
    ∃ e ≤ d + 1, (.quasiquote ∉ ms → e = d + 1) ∧ MarksAt .quasiquote e t d u := by
  cases h with
  | short pos => exact ⟨d + 1, le_rfl, fun _ => rfl, marksAt_quasiquoted pos t d⟩
  | long pos p hm => exact ⟨d, Nat.le_succ d, fun h => absurd hm h, marksAt_row (by decide) pos p t d⟩

end Marked

/-! ## Holes by size -/

/-- The number of nodes in a row of terms. -/
def Term.weight (ts : List Code) : Nat := (Term.nodesAll ts).length

@[simp] theorem Term.weight_singleton (t : Code) : Term.weight [t] = t.nodes.length := by
  simp [weight, nodesAll]

@[simp] theorem Term.weight_append (ts us : List Code) : Term.weight (ts ++ us) = Term.weight ts + Term.weight us := by
  induction ts with
  | nil => simp [weight, nodesAll]
  | cons t ts ih =>
    simp only [weight, List.cons_append, nodesAll, List.length_append] at ih ⊢
    omega

/-- What stands in the holes of a template is less than the template. -/
theorem Term.weight_holes_lt (d : Nat) (t : Code) : Term.weight (t.holes d) < t.nodes.length := by
  refine (Recursion.quasiquote.mutual_induct (fun d t => Term.weight (t.holes d) < t.nodes.length)
    (fun d ts => Term.weight (Term.holesAll d ts) ≤ Term.weight ts)
    ?unquoted ?unquotedInside ?quasiquoted ?quoted ?hole ?holeInside ?row ?atom ?nil ?cons).1 d t
  case unquoted =>
    intro pos t
    simp [Term.holes, Term.nodes]
  case hole =>
    intro pos p t
    simp [Term.holes, Term.nodes, Term.nodesAll]
  case unquotedInside | quasiquoted | quoted =>
    intro d pos t ih
    rw [Term.holes, Term.nodes, List.length_cons]
    omega
  case holeInside =>
    intro d pos p t ih
    simp only [Term.holes, Term.nodes, Term.nodesAll, List.length_cons, List.length_append]
    omega
  case row =>
    intro d pos ts h₁ h₂ ih
    rw [Term.holes_list (Term.isHole_list_eq_false pos h₁ h₂), Term.nodes, List.length_cons]
    exact Nat.lt_succ_of_le ih
  case atom =>
    intro d t h₁ h₂ h₃ h₄ h₅ h₆ h₇
    rw [Term.holes]
    · cases t <;> simp [Term.weight, Term.nodesAll, Term.nodes]
    all_goals assumption
  case nil =>
    intro d
    exact le_rfl
  case cons =>
    intro d t ts iht ihts
    have hcons : Term.weight (t :: ts) = t.nodes.length + Term.weight ts := List.length_append
    rw [Term.holesAll, Term.weight_append, hcons]
    omega

/-! ## Templates -/

/-- A template has no less in its holes than another one at its own depth, and is filled as that one is if it has no more. -/
structure FillsLike (d : Nat) (t : Code) (e : Nat) (u : Code) : Prop where
  weight_le : Term.weight (t.holes d) ≤ Term.weight (u.holes e)
  filled : Term.weight (t.holes d) = Term.weight (u.holes e) →
    ∀ (r : Recursion) scope, r.quasiquote scope e u = r.quasiquote scope d t

namespace FillsLike

variable {d e : Nat} {t u : Code}

theorem of_lt (h : Term.weight (t.holes d) < Term.weight (u.holes e)) : FillsLike d t e u :=
  ⟨h.le, fun heq => absurd heq h.ne⟩

/-- The templates are alike behind a mark if they are inside it. -/
theorem marked {m : Marker} {d' e' : Nat} {t' u' : Code} (h : FillsLike d t e u) (ht : MarksAt m d t d' t')
    (hu : MarksAt m e u e' u') : FillsLike d' t' e' u' := by
  refine ⟨by rw [ht.holes, hu.holes]; exact h.weight_le, fun hw r scope => ?_⟩
  rw [ht.holes, hu.holes] at hw
  rw [ht.filled, hu.filled, h.filled hw]

end FillsLike

namespace Respelled

theorem eq_symbol {d : Nat} {t : Code} {p : Position} {name : String} (h : Respelled ms d t (.symbol p name)) :
    t = .symbol p name := by
  cases h with
  | atom => rfl
  | unquoted hu | unquotedInside _ hu | quasiquoted _ hu | quoted _ hu => nomatch hu

/-- A row that is no unquoted term is none after it is respelled. -/
theorem isHole_row {d : Nat} {pos : Position} {ts us : List Code} (hrow : Term.isHole (.list pos ts) = false)
    (h : RespelledAll ms d ts us) : Term.isHole (.list pos us) = false := by
  rw [← Bool.not_eq_true] at hrow ⊢
  intro hhole
  obtain ⟨p, u, rfl⟩ := Term.eq_of_isHole_list hhole
  obtain _ | ⟨hhead, _ | ⟨-, _ | _⟩⟩ := h
  obtain rfl := hhead.eq_symbol
  exact hrow rfl

theorem nodes_length_le {d : Nat} {t u : Code} (h : Respelled ms d t u) : t.nodes.length ≤ u.nodes.length := by
  refine @Respelled.rec ms (fun _ t u _ => t.nodes.length ≤ u.nodes.length) (fun _ ts us _ => Term.weight ts ≤ Term.weight us)
    ?unquoted ?unquotedInside ?quasiquoted ?quoted ?hole ?holeInside ?row ?atom ?nil ?cons d t u h
  case unquoted =>
    intro pos t u hu
    exact hu.nodes_length_lt
  case unquotedInside | quasiquoted | quoted =>
    intro d pos t t' u _ hu ih
    exact (Nat.succ_le_succ ih).trans hu.nodes_length_lt
  case hole =>
    intros
    exact le_rfl
  case holeInside =>
    intro d pos p t t' _ ih
    simpa [Term.nodes, Term.nodesAll] using ih
  case row =>
    intro d pos ts us _ _ ih
    exact Nat.succ_le_succ ih
  case atom =>
    intros
    exact le_rfl
  case nil =>
    intros
    exact le_rfl
  case cons =>
    intro d t u ts us _ _ ih ihs
    simp only [Term.weight, Term.nodesAll, List.length_append] at ihs ⊢
    omega

/-- A template that is a hole as a whole at depth zero has more in its holes than a template inside it. -/
theorem weight_holes_lt_of_hole {d : Nat} {t t' : Code} (h : Respelled ms d t t') :
    Term.weight (t.holes d) < Term.weight [t'] := by
  rw [Term.weight_singleton]
  exact (Term.weight_holes_lt d t).trans_le h.nodes_length_le

/-- At no greater depth a respelled template has no less in its holes, since what comes to be a hole contains what was one.
It is filled as the template is if it has no more in them. -/
theorem fillsLike {d : Nat} {t u : Code} (h : Respelled ms d t u) : ∀ e ≤ d, FillsLike d t e u := by
  refine @Respelled.rec ms (fun d t u _ => ∀ e ≤ d, FillsLike d t e u)
    (fun d ts us _ => ∀ e ≤ d, Term.weight (Term.holesAll d ts) ≤ Term.weight (Term.holesAll e us) ∧
      (Term.weight (Term.holesAll d ts) = Term.weight (Term.holesAll e us) →
        ∀ (r : Recursion) scope, r.quasiquoteAll scope e us = r.quasiquoteAll scope d ts))
    ?unquoted ?unquotedInside ?quasiquoted ?quoted ?hole ?holeInside ?row ?atom ?nil ?cons d t u h
  case unquoted =>
    rintro pos t u hu e he
    obtain rfl := Nat.le_zero.1 he
    obtain ⟨hholes, hquasiquote⟩ := hu.unquote_zero
    refine ⟨by rw [hholes, Term.holes], fun _ r scope => ?_⟩
    rw [hquasiquote, Recursion.quasiquote]
  case unquotedInside =>
    intro d pos t t' u ht hu ih e he
    cases e with
    | zero =>
      -- The template comes to be one hole, which holds more than all the holes that were in it.
      refine .of_lt ?_
      rw [hu.unquote_zero.1, Term.holes]
      exact ht.weight_holes_lt_of_hole
    | succ e =>
      have hmark : Marked [] .unquote t (.marked pos .unquote t) := .short pos
      exact (ih e (Nat.le_of_succ_le_succ he)).marked (hmark.unquote_succ d) (hu.unquote_succ e)
  case quasiquoted =>
    intro d pos t t' u _ hu ih e he
    obtain ⟨e', he', -, hmarks⟩ := hu.quasiquote e
    exact (ih e' (by omega)).marked (marksAt_quasiquoted pos t d) hmarks
  case quoted =>
    intro d pos t t' u _ hu ih e he
    have hmark : Marked [] .quote t (.marked pos .quote t) := .short pos
    exact (ih e he).marked (hmark.quote d) (hu.quote e)
  case hole =>
    rintro pos p t e he
    obtain rfl := Nat.le_zero.1 he
    exact ⟨le_rfl, fun _ _ _ => rfl⟩
  case holeInside =>
    intro d pos p t t' ht ih e he
    cases e with
    | zero =>
      refine .of_lt ?_
      rw [Term.holes, Term.holes]
      exact ht.weight_holes_lt_of_hole
    | succ e =>
      have hmark (t : Code) : Marked [.unquote] .unquote t (.list pos [.symbol p "unquote", t]) :=
        .long pos p List.mem_cons_self
      exact (ih e (Nat.le_of_succ_le_succ he)).marked ((hmark t).unquote_succ d) ((hmark t').unquote_succ e)
  case row =>
    intro d pos ts us hrow hts ih e he
    obtain ⟨hle, heq⟩ := ih e he
    have hrow' := isHole_row hrow hts
    constructor
    · rwa [Term.holes_list hrow, Term.holes_list hrow']
    · intro hw r scope
      rw [Term.holes_list hrow, Term.holes_list hrow'] at hw
      rw [quasiquote_list r scope hrow, quasiquote_list r scope hrow', heq hw]
  case atom =>
    intro d t hmarked hlist e he
    have hatom (d : Nat) : t.holes d = [] ∧ ∀ (r : Recursion) scope, r.quasiquote scope d t = pure t.toValue := by
      cases t <;> simp_all [Term.holes, Recursion.quasiquote]
    refine ⟨by rw [(hatom d).1, (hatom e).1], fun _ r scope => ?_⟩
    rw [(hatom e).2, (hatom d).2]
  case nil =>
    intro d e he
    exact ⟨le_rfl, fun _ r scope => by rw [Recursion.quasiquoteAll, Recursion.quasiquoteAll]⟩
  case cons =>
    intro d t u ts us _ _ ih ihs e he
    obtain ⟨hle, heq⟩ := ih e he
    obtain ⟨hles, heqs⟩ := ihs e he
    rw [Term.holesAll, Term.holesAll, Term.weight_append, Term.weight_append]
    refine ⟨Nat.add_le_add hle hles, fun hw r scope => ?_⟩
    -- No part has less in its holes than before, so if all of them together have as much, each of them has.
    rw [Recursion.quasiquoteAll, Recursion.quasiquoteAll, heq (by omega), heqs (by omega)]

/-- A template keeps its holes if its quasiquotes keep their mark. -/
theorem holes_eq (hms : .quasiquote ∉ ms) {d : Nat} {t u : Code} (h : Respelled ms d t u) : u.holes d = t.holes d := by
  refine @Respelled.rec ms (fun d t u _ => u.holes d = t.holes d)
    (fun d ts us _ => Term.holesAll d us = Term.holesAll d ts)
    ?unquoted ?unquotedInside ?quasiquoted ?quoted ?hole ?holeInside ?row ?atom ?nil ?cons d t u h
  case unquoted =>
    intro pos t u hu
    rw [hu.unquote_zero.1, Term.holes]
  case unquotedInside =>
    intro d pos t t' u _ hu ih
    rw [(hu.unquote_succ d).holes, ih, Term.holes]
  case quasiquoted =>
    intro d pos t t' u _ hu ih
    obtain ⟨e, -, hguarded, hmarks⟩ := hu.quasiquote d
    rw [hmarks.holes, hguarded hms, ih, Term.holes]
  case quoted =>
    intro d pos t t' u _ hu ih
    rw [(hu.quote d).holes, ih, Term.holes]
  case hole =>
    intros
    rfl
  case holeInside =>
    intro d pos p t t' _ ih
    rw [Term.holes, ih, Term.holes]
  case row =>
    intro d pos ts us hrow hts ih
    rw [Term.holes_list hrow, Term.holes_list (isHole_row hrow hts), ih]
  case atom | nil =>
    intros
    rfl
  case cons =>
    intro d t u ts us _ _ ih ihs
    rw [Term.holesAll, ih, ihs, Term.holesAll]

end Respelled

/-! ## What is evaluated -/

namespace Recursion

/-- The store with a frame of its own for a term. -/
def kept (s : Store) (t : Code) : Store :=
  { s with frames := ⟨s.frames.table.push [("", .closure 0 ⟨none, [], [t], .global⟩)]⟩ }

/-- An evaluator that keeps each term it is given, and has no other value than the empty list. -/
def keeping : Recursion where
  evaluate t _ := fun s => .ok .nil (kept s t)
  apply _ _ := pure .nil

theorem evaluateAll_keeping (scope : Scope) (ts : List Code) (s : Store) :
    ∃ vs, keeping.evaluateAll scope ts s = .ok vs (ts.foldl kept s) := by
  induction ts generalizing s with
  | nil => exact ⟨[], rfl⟩
  | cons t ts ih =>
    obtain ⟨vs, hvs⟩ := ih (kept s t)
    exact ⟨.nil :: vs, (EStateM.bind_of_ok rfl _).trans (EStateM.bind_of_ok hvs _)⟩

theorem table_foldl_kept (ts : List Code) (s : Store) : (ts.foldl kept s).frames.table.toList =
    s.frames.table.toList ++ ts.map fun t => [("", .closure 0 ⟨none, [], [t], .global⟩)] := by
  induction ts generalizing s with
  | nil => simp
  | cons t ts ih => simp [ih, kept]

end Recursion

/-- What is evaluated for a template is what stands in its holes. -/
theorem holes_eq_of_quasiquote_eq {d e : Nat} {t u : Code}
    (h : ∀ (r : Recursion) scope, r.quasiquote scope e u = r.quasiquote scope d t) : u.holes e = t.holes d := by
  have hstore (d : Nat) (t : Code) : Eval.final (Recursion.keeping.quasiquote .global d t freshStore) =
      (t.holes d).foldl Recursion.kept freshStore := by
    obtain ⟨vs, hvs⟩ := Recursion.evaluateAll_keeping .global (t.holes d) freshStore
    rw [quasiquote_plug, EStateM.bind_of_ok hvs]
    rfl
  have hkept : (u.holes e).foldl Recursion.kept freshStore = (t.holes d).foldl Recursion.kept freshStore := by
    rw [← hstore, ← hstore, h]
  have htable := congrArg (fun s => s.frames.table.toList) hkept
  simp only [Recursion.table_foldl_kept] at htable
  refine List.map_injective_iff.2 (fun t t' ht => ?_) (List.append_cancel_left htable)
  simpa using ht

/-- A template with some of its marks written as lists is filled as the template is, by every evaluator, exactly if the same
stands in its holes. It does if its quasiquotes keep their mark. -/
theorem quasiquote_respelled_iff {t u : Code} (h : Respelled ms 0 t u) :
    ((∀ (r : Recursion) scope, r.quasiquote scope 0 u = r.quasiquote scope 0 t) ↔ u.holes 0 = t.holes 0) ∧
      (.quasiquote ∉ ms → u.holes 0 = t.holes 0) :=
  ⟨⟨holes_eq_of_quasiquote_eq, fun hholes => (h.fillsLike 0 le_rfl).filled (by rw [hholes])⟩, fun hms => h.holes_eq hms⟩

/-- The template of an unquoted `x` and a quoted quasiquote that guards an unquoted `y`. -/
def guardingTemplate : Code :=
  .list .start [.marked .start .unquote (.symbol .start "x"),
    .marked .start .quote (.marked .start .quasiquote (.marked .start .unquote (.symbol .start "y")))]

/-- The template with its own unquote and its quote written as lists. -/
def guardingLists : Code :=
  .list .start [.list .start [.symbol .start "unquote", .symbol .start "x"], .list .start [.symbol .start "quote",
    .marked .start .quasiquote (.marked .start .unquote (.symbol .start "y"))]]

/-- The template is filled as it was while its quasiquote keeps the mark. Written with lists alone it has another hole, which
some evaluator tells apart. -/
theorem quasiquote_respelled_iff_guardingTemplate :
    (∀ (r : Recursion) scope, r.quasiquote scope 0 guardingLists = r.quasiquote scope 0 guardingTemplate) ∧
      guardingTemplate.spellOut.holes 0 = [.symbol .start "x", .symbol .start "y"] ∧
      ¬ ∀ (r : Recursion) scope, r.quasiquote scope 0 guardingTemplate.spellOut = r.quasiquote scope 0 guardingTemplate := by
  have hlists : Respelled [.quote, .unquote] 0 guardingTemplate guardingLists := by
    refine .row rfl (.cons (.unquoted (.long _ _ (by decide))) (.cons (.quoted ?_ (.long _ _ (by decide))) .nil))
    exact .quasiquoted (.unquotedInside (.atom nofun nofun) (.short _)) (.short _)
  have hlong : Respelled [.quote, .quasiquote, .unquote] 0 guardingTemplate guardingTemplate.spellOut := by
    refine .row rfl (.cons (.unquoted (.long _ _ (by decide))) (.cons (.quoted ?_ (.long _ _ (by decide))) .nil))
    exact .quasiquoted (.unquotedInside (.atom nofun nofun) (.long _ _ (by decide))) (.long _ _ (by decide))
  have hsame := quasiquote_respelled_iff hlists
  refine ⟨hsame.1.2 (hsame.2 (by decide)), rfl, fun h => ?_⟩
  exact absurd ((quasiquote_respelled_iff hlong).1.1 h) (by simp [guardingTemplate, Term.holes, Term.holesAll, Marker.word])

theorem readSource_guardedHole : (Reader.readSource "``,x" : Except SyntaxError (List Code)) =
    .ok [.marked ⟨1, 1⟩ .quasiquote (.marked ⟨1, 2⟩ .quasiquote (.marked ⟨1, 3⟩ .unquote (.symbol ⟨1, 4⟩ "x")))] := by
  cbv

theorem readSource_listedHole : (Reader.readSource "`(quasiquote ,x)" : Except SyntaxError (List Code)) =
    .ok [.marked ⟨1, 1⟩ .quasiquote
      (.list ⟨1, 2⟩ [.symbol ⟨1, 3⟩ "quasiquote", .marked ⟨1, 14⟩ .unquote (.symbol ⟨1, 15⟩ "x")])] := by
  cbv

/-- A template that is guarded by its mark, and is not when the mark is written as a list, as in the second source: the first
one has the data of `(quasiquote (unquote x))` for a value, and the second one fails since `x` is not bound. -/
theorem not_sameOutcome_respelled :
    ∃ t u u', Reader.readSource "``,x" = .ok [.marked ⟨1, 1⟩ .quasiquote t] ∧ Respelled [.quasiquote] 0 t u ∧
      Reader.readSource "`(quasiquote ,x)" = .ok [.marked ⟨1, 1⟩ .quasiquote u'] ∧ u'.seen .blind = u.seen .blind ∧
      ¬ SameOutcome (evaluator.quasiquote .global 0 u freshStore) (evaluator.quasiquote .global 0 t freshStore) := by
  refine ⟨_, .list ⟨1, 2⟩ [.symbol ⟨1, 2⟩ "quasiquote", .marked ⟨1, 3⟩ .unquote (.symbol ⟨1, 4⟩ "x")], _,
    readSource_guardedHole, ?_, readSource_listedHole, rfl, fun h => ?_⟩
  · exact .quasiquoted (.unquotedInside (.atom nofun nofun) (.short _)) (.long _ _ (List.mem_singleton.2 rfl))
  · obtain ⟨n, hn⟩ := Nat.exists_eq_add_of_le' two_le_fuel
    obtain ⟨f, hunbound⟩ : ∃ f, evaluate (n + 2) (.symbol ⟨1, 4⟩ "x") .global freshStore = .error (.fault f) freshStore := by
      rw [evaluate_succ]
      exact ⟨_, rfl⟩
    have hfails : Recursion.quasiquote ⟨evaluate (n + 2), apply (n + 2)⟩ .global 0 (.list ⟨1, 2⟩ [.symbol ⟨1, 2⟩ "quasiquote",
        .marked ⟨1, 3⟩ .unquote (.symbol ⟨1, 4⟩ "x")]) freshStore = .error (.fault f) freshStore := by
      rw [quasiquote_plug]
      exact EStateM.bind_of_error (EStateM.bind_of_error hunbound _) _
    rw [evaluator, hn, hfails] at h
    cases h

end Lisplet
