import FlowTyping.Proofs.Catalog.Merging
import FlowTyping.Proofs.Table

/-
  Sound catalogs

  A sound catalog is canonical, and every type that one of its entries, class
  tables or methods mentions is entered and not provisional. A type with a
  template shares the class table of a generic type that has none, and what has
  a metaclass is no specialization. The built-in types are there.

  Everything that happens to a catalog while a program is typed keeps it sound.
-/
namespace FlowTyping

/-! ## The types that parts of a catalog mention -/

def Restriction.types : Restriction → List Ty
  | .type t => [t]
  | .receiver => []

def Builtin.types : Builtin → List Ty
  | .fixed t => [t]
  | _ => []

def Body.types : Body → List Ty
  | .code _ => []
  | .builtin b => b.types

/-- The types of some restrictions. -/
def restrictedTypes (rs : List (Option Restriction)) : List Ty :=
  rs.flatMap fun r => r.toList.flatMap Restriction.types

def Method.types (m : Method) : List Ty :=
  m.owner :: restrictedTypes (m.parameters.map (·.restriction)) ++ m.body.types

def MethodTable.types (table : MethodTable) : List Ty :=
  table.entries.flatMap fun entry =>
    entry.2.entries.flatMap fun overload => restrictedTypes overload.1.restrictions

/-- The types that a class table mentions. -/
def ClassTable.mentioned (table : ClassTable) : List Ty :=
  table.container.toList ++ table.superclass.toList ++ table.includes ++
    table.types.entries.map (·.2) ++ MethodTable.types table.methods

/-- The types that an entry mentions, apart from what a provisional type leads to. -/
def Shape.types : Shape → List Ty
  | .primitive _ _ | .mixin _ => []
  | .object o => o.slots.entries.flatMap (·.2.toList) ++ o.template.toList
  | .pointer pointee => pointee.toList
  | .record _ fields => fields.entries.map (·.2)
  | .union ms => ms
  | .metaclass _ subject => [subject]
  | .provisional p => [p.template]
  | .constant _ container _ => [container]

namespace Catalog

/-- An object type that specializes `template`. -/
def Specializes (c : Catalog) (t template : Ty) : Prop :=
  ∃ o, c.shape t = .object o ∧ o.template = some template

/-- A generic object type that specializes no other. -/
def Template (c : Catalog) (t : Ty) : Prop :=
  ∃ o, c.shape t = .object o ∧ o.generic = true ∧ o.template = none

/-- How the entries that belong together are linked: a specialization to its template, whose class
table it shares, and a metaclass to a type that is no specialization. -/
def Linked (c : Catalog) : Shape → Prop
  | .object o => ∀ u, o.template = some u → o.generic = true ∧
      ∃ o', c.shape u = .object o' ∧ o'.generic = true ∧ o'.template = none ∧ o'.cls = o.cls
  | .metaclass _ u => ∀ o, c.shape u = .object o → o.template = none
  | _ => True

structure Sound (c : Catalog) : Prop where
  canonical : c.Canonical
  shapes : ∀ t, ∀ u ∈ (c.shape t).types, c.Definite u
  classes : ∀ k, ∀ u ∈ (c.classTable k).mentioned, c.Definite u
  methods : ∀ m, ∀ u ∈ (c.method m).types, c.Definite u
  links : ∀ t, c.Linked (c.shape t)
  specializations : ∀ entry ∈ c.specializations.entries, c.Specializes entry.2 entry.1.1
  builtins : ∀ entry ∈ Ty.builtins, c.Definite entry.2

variable {c c' : Catalog} {s : Shape} {t u : Ty}

theorem lt_size_of_object {o : ObjectShape} (h : c.shape t = .object o) : t.index < c.size := by
  refine Nat.lt_of_not_le fun hle => ?_
  rw [shape_of_size_le hle] at h
  cases h

namespace Grows

/-- Objects stay objects, with other slots perhaps. -/
theorem object (h : c.Grows c') {o : ObjectShape} (ho : c.shape t = .object o) :
    ∃ slots, c'.shape t = .object { o with slots := slots } := by
  have hb := h.shape t (lt_size_of_object ho)
  rw [ho] at hb
  generalize c'.shape t = q at hb ⊢
  cases hb with
  | same => exact ⟨o.slots, rfl⟩
  | slots _ slots => exact ⟨slots, rfl⟩

theorem specializes (h : c.Grows c') (hs : c.Specializes t u) : c'.Specializes t u := by
  obtain ⟨o, ho, hu⟩ := hs
  obtain ⟨slots, hslots⟩ := h.object ho
  exact ⟨_, hslots, hu⟩

theorem linked (h : c.Grows c') (hs : c.Linked s) (htypes : ∀ u ∈ s.types, c.Definite u) :
    c'.Linked s := by
  cases s with
  | object o =>
    intro u hu
    obtain ⟨hgen, o', ho', hgen', hnone, hcls⟩ := hs u hu
    obtain ⟨slots, hslots⟩ := h.object ho'
    exact ⟨hgen, _, hslots, hgen', hnone, hcls⟩
  | metaclass k u =>
    intro o ho
    have hb := h.shape u (htypes u (List.mem_singleton_self u)).1
    rw [ho] at hb
    generalize hq : c.shape u = q at hb
    cases hb with
    | same => exact hs o hq
    | slots o' _ => exact hs o' hq
  | _ => trivial

end Grows

namespace Sound

theorem metaclass_subject (hc : c.Sound) {k : ClassHandle} (h : c.shape t = .metaclass k u) :
    c.Definite u :=
  hc.shapes t u (by rw [h]; exact List.mem_singleton_self u)

/-- Entries may be added that mention definite types and are linked. -/
theorem push (hc : c.Sound) (hadmits : c.Admits s) (htypes : ∀ u ∈ s.types, c.Definite u)
    (hlinked : c.Linked s) : (c.push s).2.Sound := by
  have hg := Grows.push c s
  refine ⟨hc.canonical.push hadmits, fun t u hu => ?_, fun k u hu => hg.definite (hc.classes k u hu),
    fun m u hu => hg.definite (hc.methods m u hu), fun t => ?_,
    fun entry he => hg.specializes (hc.specializations entry he),
    fun entry he => hg.definite (hc.builtins entry he)⟩
  · rw [shape_push] at hu
    split at hu
    · exact hg.definite (htypes u hu)
    · exact hg.definite (hc.shapes t u hu)
  · rw [shape_push]
    split
    · exact hg.linked hlinked htypes
    · exact hg.linked (hc.links t) (hc.shapes t)

/-- The slots of an object may get definite types. -/
theorem setSlots (hc : c.Sound) {o : ObjectShape} (ho : c.shape t = .object o)
    {slots : Table String (Option Ty)}
    (hslots : ∀ u ∈ slots.entries.flatMap (·.2.toList), c.Definite u) :
    (c.setShape t (.object { o with slots := slots })).Sound := by
  have hb : (c.shape t).Becomes (.object { o with slots := slots }) := by rw [ho]; exact .slots o slots
  have hg := Grows.setShape hb
  refine ⟨hc.canonical.setShape hb (fun p u h => by cases h), fun v u hu => ?_,
    fun k u hu => hg.definite (hc.classes k u hu), fun m u hu => hg.definite (hc.methods m u hu),
    fun v => ?_, fun entry he => hg.specializes (hc.specializations entry he),
    fun entry he => hg.definite (hc.builtins entry he)⟩
  · rw [shape_setShape] at hu
    split at hu
    · rcases List.mem_append.mp hu with hu | hu
      · exact hg.definite (hslots u hu)
      · refine hg.definite (hc.shapes t u ?_)
        rw [ho]
        exact List.mem_append_right _ hu
    · exact hg.definite (hc.shapes v u hu)
  · rw [shape_setShape]
    split
    · have hlinked := hg.linked (hc.links t) (hc.shapes t)
      rw [ho] at hlinked
      exact hlinked
    · exact hg.linked (hc.links v) (hc.shapes v)

/-- A provisional type may take another standing. -/
theorem setStanding (hc : c.Sound) {p : Provisional} (hp : c.shape t = .provisional p)
    {st : Standing} (hst : p.standing.Allows st)
    (hlater : ∀ u, st = .superseded u → t.index < u.index ∧ (c.shape u).isProvisional = true) :
    (c.setShape t (.provisional { p with standing := st })).Sound := by
  have hb : (c.shape t).Becomes (.provisional { p with standing := st }) := by
    rw [hp]
    exact .standing p st hst
  have hg := Grows.setShape hb
  refine ⟨hc.canonical.setShape hb (fun q u hq hs => ?_), fun v u hu => ?_,
    fun k u hu => hg.definite (hc.classes k u hu), fun m u hu => hg.definite (hc.methods m u hu),
    fun v => ?_, fun entry he => hg.specializes (hc.specializations entry he),
    fun entry he => hg.definite (hc.builtins entry he)⟩
  · cases hq
    exact hlater u hs
  · rw [shape_setShape] at hu
    split at hu
    · exact hg.definite (hc.shapes t u (by rw [hp]; exact hu))
    · exact hg.definite (hc.shapes v u hu)
  · rw [shape_setShape]
    split
    · trivial
    · exact hg.linked (hc.links v) (hc.shapes v)

/-- Class tables may change as long as they mention definite types. -/
theorem modifyClass (hc : c.Sound) (k : ClassHandle) {f : ClassTable → ClassTable}
    (hf : ∀ u ∈ (f (c.classTable k)).mentioned, c.Definite u) : (c.modifyClass k f).Sound := by
  refine ⟨hc.canonical.of_shapes_eq rfl, hc.shapes, fun l u hu => ?_, hc.methods, hc.links,
    hc.specializations, hc.builtins⟩
  unfold Catalog.modifyClass classTable at hu
  rw [Array.getElem?_modify] at hu
  by_cases h : k.index = l.index
  · obtain rfl : k = l := by cases k; cases l; simp_all
    rw [if_pos rfl] at hu
    unfold classTable at hf
    have hclasses := hc.classes k u
    unfold classTable at hclasses
    cases hk : c.classes[k.index]? with
    | none => rw [hk] at hu hclasses; exact hclasses hu
    | some table => rw [hk] at hu hf; exact hf u hu
  · rw [if_neg h] at hu
    exact hc.classes l u hu

/-! ## What is done while a program is typed -/

theorem union (hc : c.Sound) {ms : List Ty} (h₁ : 2 ≤ ms.length)
    (h₂ : ms.Pairwise (·.index < ·.index)) (h₃ : ∀ u ∈ ms, c.Single u) : (c.union ms).2.Sound := by
  rw [union_eq_intern]
  unfold Catalog.intern
  split
  · exact hc
  · next hn =>
    refine hc.push ⟨h₁, h₂, h₃, fun t ht hs => ?_⟩ (fun u hu => (h₃ u hu).1) trivial
    have := findIdx?_eq_none_iff.mp hn t.index ht
    rw [hs] at this
    simp [Shape.isUnionOf] at this

theorem merge (hc : c.Sound) {ts : List Ty} (hts : ∀ t ∈ ts, t.index < c.size) :
    (c.merge ts).2.Sound := by
  have hs : ∀ u ∈ c.live ts, c.Single u := fun u hu => hc.canonical.single_of_mem_live hts hu
  unfold Catalog.merge
  split
  · exact hc
  · exact hc
  · next hnil hone => exact hc.union (two_le_length hnil hone) (pairwise_live c ts) hs

theorem pointerFor (hc : c.Sound) (ht : t.index < c.size) : (c.pointerFor t).2.Sound := by
  rw [pointerFor_eq_intern]
  unfold Catalog.intern
  split
  · exact hc
  · refine hc.push trivial (fun u hu => ?_) trivial
    obtain rfl := List.mem_singleton.mp hu
    exact hc.canonical.grounded.resolve_definite ht

end Sound

/-! ## Specializations -/

theorem Grows.template (h : c.Grows c') (ht : c.Template t) : c'.Template t := by
  obtain ⟨o, ho, hgen, hnone⟩ := ht
  obtain ⟨slots, hslots⟩ := h.object ho
  exact ⟨_, hslots, hgen, hnone⟩

theorem Template.definite (h : c.Template t) : c.Definite t := by
  obtain ⟨o, ho, -⟩ := h
  exact ⟨lt_size_of_object ho, by rw [ho]; rfl⟩

/-- A template is its own template. -/
theorem Template.templateOf_eq (h : c.Template t) : c.templateOf t = some t := by
  have hresolve : c.resolve t = t := resolve_of_definite h.definite
  obtain ⟨o, ho, hgeneric, hnone⟩ := h
  unfold templateOf resolvedShape
  rw [hresolve, ho]
  simp [hgeneric, hnone]

theorem Specializes.definite (h : c.Specializes t u) : c.Definite t := by
  obtain ⟨o, ho, -⟩ := h
  exact ⟨lt_size_of_object ho, by rw [ho]; rfl⟩

/-- What a type specializes, or is, is a template. -/
theorem Sound.template_of_templateOf (hc : c.Sound) (h : c.templateOf t = some u) :
    c.Template u := by
  unfold templateOf resolvedShape at h
  split at h
  · next o ho =>
    cases htemplate : o.template with
    | some v =>
      rw [htemplate] at h
      obtain rfl : v = u := by simpa using h
      have hlinked := hc.links (c.resolve t)
      rw [ho] at hlinked
      obtain ⟨-, o', ho', hgen, hnone, -⟩ := hlinked v htemplate
      exact ⟨o', ho', hgen, hnone⟩
    | none =>
      rw [htemplate, Option.none_or] at h
      split at h
      · next hgen =>
        obtain rfl : c.resolve t = u := by simpa using h
        exact ⟨o, ho, hgen, htemplate⟩
      · cases h
  · cases h

theorem specialize_extends (c : Catalog) (t : Ty) (bindings : List (String × Ty)) :
    c.Extends (c.specialize t bindings).2 := by
  unfold specialize
  split
  · exact .push c fun k u h => by cases h
  · exact .refl c

theorem specialize_steady (c : Catalog) (t : Ty) (bindings : List (String × Ty)) :
    c.Steady (c.specialize t bindings).2 := by
  unfold specialize
  split
  · exact .push c rfl
  · exact .refl c

/-- The copy of a template is a specialization of it. -/
theorem Template.specialize (h : c.Template t) (bindings : List (String × Ty)) :
    (c.specialize t bindings).2.Specializes (c.specialize t bindings).1 t := by
  obtain ⟨o, ho, -⟩ := h
  unfold Catalog.specialize
  rw [ho]
  refine ⟨⟨o.cls, o.slots.putAll (bindings.map fun b => (b.1, some b.2)), true, some t⟩, ?_, rfl⟩
  rw [shape_push]
  exact if_pos rfl

/-- A copy is a new entry. -/
theorem Template.size_le_specialize (h : c.Template t) (bindings : List (String × Ty)) :
    c.size ≤ (c.specialize t bindings).1.index := by
  obtain ⟨o, ho, -⟩ := h
  unfold Catalog.specialize
  rw [ho]
  exact Nat.le_refl _

theorem Sound.specialize (hc : c.Sound) (h : c.Template t) {bindings : List (String × Ty)}
    (hb : ∀ b ∈ bindings, c.Definite b.2) : (c.specialize t bindings).2.Sound := by
  obtain ⟨o, ho, hgen, hnone⟩ := h
  unfold Catalog.specialize
  rw [ho]
  refine hc.push trivial (fun u hu => ?_) fun u hu => ?_
  · rcases List.mem_append.mp hu with hu | hu
    · obtain ⟨slot, hslot, hu⟩ := List.mem_flatMap.mp hu
      rcases Table.mem_putAll hslot with hslot | hslot
      · obtain ⟨b, hb', rfl⟩ := List.mem_map.mp hslot
        obtain rfl : u = b.2 := by simpa using hu
        exact hb b hb'
      · refine hc.shapes t u ?_
        rw [ho]
        exact List.mem_append_left _ (List.mem_flatMap.mpr ⟨slot, hslot, hu⟩)
    · obtain rfl : u = t := by simpa using hu
      exact ⟨lt_size_of_object ho, by rw [ho]; rfl⟩
  · obtain rfl : t = u := by simpa using hu
    exact ⟨rfl, o, ho, hgen, hnone, rfl⟩

theorem mem_insertBinding {b binding : String × Ty} {bindings : List (String × Ty)} :
    b ∈ insertBinding binding bindings ↔ b = binding ∨ b ∈ bindings := by
  induction bindings with
  | nil => simp [insertBinding]
  | cons head rest ih =>
    unfold insertBinding
    split
    · simp only [List.mem_cons, ih]
      constructor
      · rintro (h | h | h) <;> simp [h]
      · rintro (h | h | h) <;> simp [h]
    · simp

theorem mem_sortBindings {b : String × Ty} {bindings : List (String × Ty)} :
    b ∈ sortBindings bindings ↔ b ∈ bindings := by
  induction bindings with
  | nil => simp [sortBindings]
  | cons head rest ih =>
    have : sortBindings (head :: rest) = insertBinding head (sortBindings rest) := rfl
    rw [this, mem_insertBinding, ih, List.mem_cons]

theorem Sound.definite_bindingKey (hc : c.Sound) {bindings : List (String × Ty)}
    (hb : ∀ b ∈ bindings, b.2.index < c.size) : ∀ b ∈ c.bindingKey bindings, c.Definite b.2 := by
  intro b h
  obtain ⟨b', hb', rfl⟩ := List.mem_map.mp (mem_sortBindings.mp h)
  exact hc.canonical.grounded.resolve_definite (hb b' hb')

/-- Entries stay as they are when a specialization is entered. -/
theorem shape_instantiate {bindings : List (String × Ty)} {target : Ty}
    (h : c.instantiate t bindings = .ok (target, c')) (hu : u.index < c.size) :
    c'.shape u = c.shape u := by
  unfold Catalog.instantiate at h
  split at h
  · cases h
  · next template _ =>
    dsimp only at h
    split at h
    · cases h
      rfl
    · cases h
      show (c.specialize template (c.bindingKey bindings)).2.shape u = _
      unfold Catalog.specialize
      split
      · rw [shape_push, if_neg (Nat.ne_of_lt hu)]
      · rfl

theorem instantiate_steady {bindings : List (String × Ty)} {target : Ty}
    (h : c.instantiate t bindings = .ok (target, c')) : c.Steady c' := by
  unfold Catalog.instantiate at h
  split at h
  · cases h
  · next template _ =>
    dsimp only at h
    split at h
    · cases h
      exact .refl _
    · cases h
      exact (specialize_steady c template _).trans (.of_shapes_eq rfl)

/-- What `instantiate` gives for a generic type and bindings that are entered. -/
theorem Sound.instantiate (hc : c.Sound) {bindings : List (String × Ty)}
    (hb : ∀ b ∈ bindings, b.2.index < c.size) {target : Ty}
    (h : c.instantiate t bindings = .ok (target, c')) :
    c.Extends c' ∧ c'.Sound ∧ ∃ template, c.templateOf t = some template ∧
      c'.Specializes target template := by
  unfold Catalog.instantiate at h
  split at h
  · cases h
  · next template htemplate =>
    have ht := hc.template_of_templateOf htemplate
    dsimp only at h
    split at h
    · next known hknown =>
      cases h
      exact ⟨.refl c, hc, template, htemplate,
        hc.specializations _ (Table.mem_of_get? hknown)⟩
    · have hnew := ht.specialize (c.bindingKey bindings)
      have hs := hc.specialize ht (hc.definite_bindingKey hb)
      have hext := specialize_extends c template (c.bindingKey bindings)
      cases h
      refine ⟨hext.trans (.of_specializations _ _), ?_, template, htemplate, hnew⟩
      refine ⟨hs.canonical.of_shapes_eq rfl, hs.shapes, hs.classes, hs.methods, hs.links,
        fun entry he => ?_, hs.builtins⟩
      rcases Table.mem_put he with rfl | he
      · exact hnew
      · exact hs.specializations entry he

end Catalog

end FlowTyping
