import Lisplet.Value.Bridge
/-!
# Sound values

A value refers to things outside itself: a struct to its type, a closure and a macro to a scope. `Ground` is what there
is to refer to, and a value is `Sound` on a ground when everything it refers to is there and it has the shape its kind
asks for, down to the values embedded in the code it holds. Data that carries a stamp is what was made under this stamp. A
ground only grows, and what was sound stays sound (`Value.Sound.mono`). `Value.Within` says where one value is found inside
another; whatever is found inside a sound value is sound (`Value.Sound.within`).

Quoting and unquoting keep soundness (`Term.Sound.toValue`, `Value.Sound.toTerm`).
-/
namespace Lisplet

/-! ## Values embedded in code -/

mutual

/-- The values embedded in a term. -/
def Term.values {α : Type} : Term α → List α
  | .list _ ts => Term.valuesAll ts
  | .marked _ _ t => Term.values t
  | .format _ ps => Part.valuesAll ps
  | .embedded _ v => [v]
  | _ => []
termination_by structural t => t

/-- The values embedded in a row of terms. -/
def Term.valuesAll {α : Type} : List (Term α) → List α
  | [] => []
  | t :: ts => Term.values t ++ Term.valuesAll ts
termination_by structural ts => ts

/-- The values embedded in the parts of a format string. -/
def Part.valuesAll {α : Type} : List (Part α) → List α
  | [] => []
  | .text _ :: ps => Part.valuesAll ps
  | .code t :: ps => Term.values t ++ Part.valuesAll ps
termination_by structural ps => ps

end

theorem Term.mem_valuesAll {α : Type} {ts : List (Term α)} {v : α} :
    v ∈ Term.valuesAll ts ↔ ∃ t ∈ ts, v ∈ t.values := by
  induction ts with
  | nil => simp [Term.valuesAll]
  | cons t ts ih => simp [Term.valuesAll, ih]

theorem Part.mem_valuesAll {α : Type} {ps : List (Part α)} {v : α} :
    v ∈ Part.valuesAll ps ↔ ∃ t, Part.code t ∈ ps ∧ v ∈ t.values := by
  induction ps with
  | nil => simp [Part.valuesAll]
  | cons p ps ih => cases p <;> simp [Part.valuesAll, ih, or_and_right, exists_or]

/-! ## Grounds -/

/-- What values can refer to: the struct types that are registered, the scope that each frame was opened for, by the number
of the frame, and the quaternion, struct or error that was made under each stamp. -/
structure Ground where
  registry : Registry
  scopes : List Scope
  made : Stamp → Option Value

/-- A ground that has grown: more types, more frames and more data, what was there unchanged. -/
structure Ground.Grows (g h : Ground) : Prop where
  types : g.registry.types <+: h.registry.types
  capacity : h.registry.capacity = g.registry.capacity
  scopes : g.scopes <+: h.scopes
  made : ∀ stamp v, g.made stamp = some v → h.made stamp = some v

namespace Ground.Grows

variable {g h k : Ground}

theorem refl (g : Ground) : g.Grows g := ⟨List.prefix_refl _, rfl, List.prefix_refl _, fun _ _ => id⟩

/-- A ground that has grown twice has grown: what was made stays made. -/
theorem trans (hgh : g.Grows h) (hhk : h.Grows k) : g.Grows k :=
  ⟨hgh.types.trans hhk.types, hhk.capacity.trans hgh.capacity, hgh.scopes.trans hhk.scopes,
    fun stamp v hv => hhk.made stamp v (hgh.made stamp v hv)⟩

end Ground.Grows

/-- A built-in procedure that makes only structs of a registered type, with a value for each field. -/
def Builtin.Sound (g : Ground) (b : Builtin) : Prop :=
  ∀ type, b.operation = .structs (.construct type) →
    type ∈ g.registry.types ∧ b.arity = .exactly type.fields.length

/-- A value that is of the shape its kind asks for and refers only to what is there. -/
inductive Value.Sound (g : Ground) : Value → Prop
  | number (origin : Origin) (x : Float) : Sound g (.number origin x)
  | quaternion {stamp : Stamp} {q : Quaternion Float} : g.made stamp = some (.quaternion stamp q) →
      Sound g (.quaternion stamp q)
  | string (origin : Origin) (s : String) : Sound g (.string origin s)
  | symbol (name : String) : Sound g (.symbol name)
  | boolean (b : Bool) : Sound g (.boolean b)
  | list {items : List Value} : (∀ v ∈ items, Sound g v) → Sound g (.list items)
  | closure {stamp : Stamp} {c : Closure Value} : c.scope ∈ g.scopes → c.body ≠ [] →
      (∀ p ∈ c.params, isReserved p = false) → (∀ t ∈ c.body, ∀ v ∈ t.values, Sound g v) → Sound g (.closure stamp c)
  | template {stamp : Stamp} {name : String} {params : List String} {body : Code} {scope : Scope} :
      scope ∈ g.scopes → (∀ v ∈ body.values, Sound g v) → Sound g (.expander stamp name (.template params body scope))
  | rule {stamp : Stamp} {name : String} {pattern : List Code} {template : Code} :
      (∀ t ∈ pattern, ∀ v ∈ t.values, Sound g v) → (∀ v ∈ template.values, Sound g v) →
      Sound g (.expander stamp name (.rule pattern template))
  | structType {type : StructType} : type ∈ g.registry.types → Sound g (.structType type)
  | struct {stamp : Stamp} {type : StructType} {fields : List Value} : type ∈ g.registry.types →
      fields.length = type.fields.length → g.made stamp = some (.struct stamp type fields) → (∀ v ∈ fields, Sound g v) →
      Sound g (.struct stamp type fields)
  | builtin {b : Builtin} : b.Sound g → Sound g (.builtin b)
  | error {stamp : Stamp} {code : ErrorCode} {description : String} {payload : Option Value} :
      g.made stamp = some (.error stamp code description payload) → (∀ v ∈ payload, Sound g v) →
      Sound g (.error stamp code description payload)

/-- Code whose embedded values are sound. -/
def Term.Sound (g : Ground) (t : Code) : Prop := ∀ v ∈ t.values, v.Sound g

variable {g h : Ground}

theorem Value.Sound.nil : Value.nil.Sound g := .list (by simp)

/-- A type that is registered stays so, at its own number. -/
theorem Builtin.Sound.mono (hg : g.Grows h) {b : Builtin} (hb : b.Sound g) : b.Sound h := by
  intro type ht
  obtain ⟨hmem, harity⟩ := hb type ht
  exact ⟨hg.types.subset hmem, harity⟩

/-- What is sound stays sound when the ground grows. -/
theorem Value.Sound.mono (hg : g.Grows h) {v : Value} (hv : v.Sound g) : v.Sound h := by
  induction hv with
  | number origin x => exact .number origin x
  | quaternion hm => exact .quaternion (hg.made _ _ hm)
  | string origin s => exact .string origin s
  | symbol name => exact .symbol name
  | boolean b => exact .boolean b
  | list _ ih => exact .list ih
  | closure hs hne hp _ ih => exact .closure (hg.scopes.subset hs) hne hp ih
  | template hs _ ih => exact .template (hg.scopes.subset hs) ih
  | rule _ _ ihp iht => exact .rule ihp iht
  | structType ht => exact .structType (hg.types.subset ht)
  | struct ht hlen hm _ ih => exact .struct (hg.types.subset ht) hlen (hg.made _ _ hm) ih
  | builtin hb => exact .builtin (hb.mono hg)
  | error hm _ ih => exact .error (hg.made _ _ hm) ih

theorem Term.Sound.mono (hg : g.Grows h) {t : Code} (ht : t.Sound g) : t.Sound h := fun v hv => (ht v hv).mono hg

/-- A value that is sound as soon as it is what was made under a stamp. -/
def Value.SoundAs (stamp : Stamp) (g : Ground) (v : Value) : Prop :=
  ∀ h : Ground, g.Grows h → h.made stamp = some v → v.Sound h

theorem Value.Sound.soundAs {v : Value} (hv : v.Sound g) (stamp : Stamp) : v.SoundAs stamp g := fun _ hg _ => hv.mono hg

/-- A row of sound values. -/
abbrev Value.SoundAll (g : Ground) (vs : List Value) : Prop := ∀ v ∈ vs, v.Sound g

/-- A row of sound terms. -/
abbrev Term.SoundAll (g : Ground) (ts : List Code) : Prop := ∀ t ∈ ts, t.Sound g

theorem Value.soundAll_mono (hg : g.Grows h) {vs : List Value} (hvs : Value.SoundAll g vs) : Value.SoundAll h vs :=
  fun v hv => (hvs v hv).mono hg

theorem Term.soundAll_mono (hg : g.Grows h) {ts : List Code} (hts : Term.SoundAll g ts) : Term.SoundAll h ts :=
  fun t ht => (hts t ht).mono hg

/-! ## Values inside values -/

/-- Where a value is found inside another one: among the items of a list, the fields of a struct, the payload of an error
and the code of a closure or a macro, at any depth. -/
inductive Value.Within (w : Value) : Value → Prop
  | here : Within w w
  | item {items : List Value} {v : Value} : v ∈ items → Within w v → Within w (.list items)
  | body {stamp : Stamp} {c : Closure Value} {t : Code} {v : Value} : t ∈ c.body → v ∈ t.values → Within w v →
      Within w (.closure stamp c)
  | template {stamp : Stamp} {name : String} {params : List String} {body : Code} {scope : Scope} {v : Value} :
      v ∈ body.values → Within w v → Within w (.expander stamp name (.template params body scope))
  | pattern {stamp : Stamp} {name : String} {pattern : List Code} {template t : Code} {v : Value} : t ∈ pattern →
      v ∈ t.values → Within w v → Within w (.expander stamp name (.rule pattern template))
  | replacement {stamp : Stamp} {name : String} {pattern : List Code} {template : Code} {v : Value} :
      v ∈ template.values → Within w v → Within w (.expander stamp name (.rule pattern template))
  | field {stamp : Stamp} {type : StructType} {fields : List Value} {v : Value} : v ∈ fields → Within w v →
      Within w (.struct stamp type fields)
  | payload {stamp : Stamp} {code : ErrorCode} {description : String} {v : Value} : Within w v →
      Within w (.error stamp code description (some v))

/-- Whatever is found inside a sound value is sound. -/
theorem Value.Sound.within {v w : Value} (hw : w.Within v) (hv : v.Sound g) : w.Sound g := by
  induction hw with
  | here => exact hv
  | item hm _ ih =>
    cases hv with
    | list hitems => exact ih (hitems _ hm)
  | body ht hm _ ih =>
    cases hv with
    | closure _ _ _ hbody => exact ih (hbody _ ht _ hm)
  | template hm _ ih =>
    cases hv with
    | template _ hbody => exact ih (hbody _ hm)
  | pattern ht hm _ ih =>
    cases hv with
    | rule hpattern _ => exact ih (hpattern _ ht _ hm)
  | replacement hm _ ih =>
    cases hv with
    | rule _ htemplate => exact ih (htemplate _ hm)
  | field hm _ ih =>
    cases hv with
    | struct _ _ _ hfields => exact ih (hfields _ hm)
  | payload _ ih =>
    cases hv with
    | error _ hpayload => exact ih (hpayload _ rfl)

/-! ## Rows of terms -/

theorem Term.sound_list {pos : Position} {ts : List Code} : Term.Sound g (.list pos ts) ↔ ∀ t ∈ ts, t.Sound g := by
  simp only [Term.Sound, Term.values, Term.mem_valuesAll]
  exact ⟨fun hall t ht v hv => hall v ⟨t, ht, hv⟩, fun hall v ⟨t, ht, hv⟩ => hall t ht v hv⟩

theorem Term.sound_marked {pos : Position} {m : Marker} {t : Code} : Term.Sound g (.marked pos m t) ↔ t.Sound g := Iff.rfl

theorem Term.sound_format {pos : Position} {ps : List (Part Value)} :
    Term.Sound g (.format pos ps) ↔ ∀ t, Part.code t ∈ ps → t.Sound g := by
  simp only [Term.Sound, Term.values, Part.mem_valuesAll]
  exact ⟨fun hall t ht v hv => hall v ⟨t, ht, hv⟩, fun hall v ⟨t, ht, hv⟩ => hall t ht v hv⟩

theorem Term.sound_embedded {pos : Position} {v : Value} : Term.Sound g (.embedded pos v) ↔ v.Sound g := by
  simp [Term.Sound, Term.values]

/-! ## Quoting -/

mutual

/-- The data of sound code is sound. -/
theorem Term.Sound.toValue : ∀ {t : Code}, t.Sound g → t.toValue.Sound g
  | .number _ _, _ => .number _ _
  | .string _ _, _ => .string _ _
  | .symbol _ _, _ => .symbol _
  | .boolean _ _, _ => .boolean _
  | .nil _, _ => .nil
  | .list _ _, ht => .list (Term.toValues_sound (Term.sound_list.1 ht))
  | .marked _ m t, ht => by
    have hbody : t.toValue.Sound g := Term.Sound.toValue (Term.sound_marked.1 ht)
    exact .list (by simpa using ⟨.symbol m.word, hbody⟩)
  | .format _ ps, ht =>
    .list (List.forall_mem_cons.2 ⟨.symbol _, Term.partValues_sound (Term.sound_format.1 ht)⟩)
  | .embedded _ _, ht => Term.sound_embedded.1 ht

theorem Term.toValues_sound : ∀ {ts : List Code}, (∀ t ∈ ts, t.Sound g) → ∀ v ∈ Term.toValues ts, v.Sound g
  | [], _ => by simp [Term.toValues]
  | _ :: _, hts => by
    obtain ⟨ht, hts⟩ := List.forall_mem_cons.1 hts
    exact List.forall_mem_cons.2 ⟨Term.Sound.toValue ht, Term.toValues_sound hts⟩

theorem Term.partValues_sound : ∀ {ps : List (Part Value)}, (∀ t, Part.code t ∈ ps → t.Sound g) →
    ∀ v ∈ Term.partValues ps, v.Sound g
  | [], _ => by simp [Term.partValues]
  | .text _ :: _, hps =>
    List.forall_mem_cons.2 ⟨.string _ _, Term.partValues_sound fun t ht => hps t (List.mem_cons_of_mem _ ht)⟩
  | .code t :: _, hps =>
    List.forall_mem_cons.2 ⟨Term.Sound.toValue (hps t List.mem_cons_self),
      Term.partValues_sound fun t ht => hps t (List.mem_cons_of_mem _ ht)⟩

end

mutual

/-- The code that stands for a sound value is sound. -/
theorem Value.Sound.toTerm (pos : Position) : ∀ {v : Value}, v.Sound g → (v.toTerm pos).Sound g
  | .number _ _, _ => by simp [Value.toTerm, Term.Sound, Term.values]
  | .string _ _, _ => by simp [Value.toTerm, Term.Sound, Term.values]
  | .symbol _, _ => by simp [Value.toTerm, Term.Sound, Term.values]
  | .boolean _, _ => by simp [Value.toTerm, Term.Sound, Term.values]
  | .list _, .list hitems => Term.sound_list.2 (Value.toTerms_sound pos hitems)
  | .quaternion _ _, hv | .closure _ _, hv | .expander _ _ _, hv | .structType _, hv | .struct _ _ _, hv
  | .builtin _, hv | .error _ _ _ _, hv => Term.sound_embedded.2 hv

/-- Data that is taken for code has the same values in it. -/
theorem Value.toTerms_sound (pos : Position) : ∀ {vs : List Value}, (∀ v ∈ vs, v.Sound g) →
    ∀ t ∈ Value.toTerms pos vs, t.Sound g
  | [], _ => by simp [Value.toTerms]
  | _ :: _, hvs => by
    obtain ⟨hv, hvs⟩ := List.forall_mem_cons.1 hvs
    exact List.forall_mem_cons.2 ⟨Value.Sound.toTerm pos hv, Value.toTerms_sound pos hvs⟩

end

end Lisplet
