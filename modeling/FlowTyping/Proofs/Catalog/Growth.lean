import FlowTyping.Catalog.Basic

/-
  How a catalog grows

  Entries are only ever added to a catalog. An entry that is there stays what it
  is, except that the slots of an object may get types and that a provisional
  type may settle, or be superseded for good. `Catalog.Grows` says this of two
  catalogs of one run.

  What follows from it: a type that is not superseded in the later catalog
  stands for the same type in both and has the same members there
  (`Grows.resolve_eq`, `Grows.members_eq`). These need that provisional types
  lead to other types, which `Catalog.Grounded` says.

  While a program is typed even less happens to a catalog: `Catalog.Extends`.
-/
namespace FlowTyping

/-- How a standing may change: a target is kept until the type is superseded, and that is final. -/
def Standing.Allows (before after : Standing) : Prop :=
  match before with
  | .superseded _ => after = before
  | .pending t | .settled t => after.isSuperseded = true ∨ after.target? = some t

namespace Standing

/-- What stands for a type is not superseded. -/
theorem isSuperseded_of_target? {st : Standing} {t : Ty} (h : st.target? = some t) :
    st.isSuperseded = false := by
  cases st with
  | superseded _ => cases h
  | pending _ => rfl
  | settled _ => rfl

theorem Allows.trans {a b d : Standing} (h₁ : a.Allows b) (h₂ : b.Allows d) : a.Allows d := by
  cases a <;> cases b <;> simp_all [Allows, target?, isSuperseded]

end Standing

namespace Shape

def isProvisional : Shape → Bool
  | .provisional _ => true
  | _ => false

def isUnion : Shape → Bool
  | .union _ => true
  | _ => false

/-- What an entry may become. -/
inductive Becomes : Shape → Shape → Prop
  | same (s : Shape) : Becomes s s
  | slots (o : ObjectShape) (slots : Table String (Option Ty)) :
      Becomes (.object o) (.object { o with slots := slots })
  | standing (p : Provisional) (st : Standing) (h : p.standing.Allows st) :
      Becomes (.provisional p) (.provisional { p with standing := st })

theorem Becomes.trans {a b d : Shape} (h₁ : a.Becomes b) (h₂ : b.Becomes d) : a.Becomes d := by
  cases h₁ with
  | same => exact h₂
  | slots o slots =>
    cases h₂ with
    | same => exact .slots o slots
    | slots _ later => exact .slots o later
  | standing p st h =>
    cases h₂ with
    | same => exact .standing p st h
    | standing _ later h' => exact .standing p later (h.trans h')

theorem Becomes.isProvisional_eq {a b : Shape} (h : a.Becomes b) :
    b.isProvisional = a.isProvisional := by
  cases h <;> rfl

theorem Becomes.isUnion_eq {a b : Shape} (h : a.Becomes b) : b.isUnion = a.isUnion := by
  cases h <;> rfl

/-- An entry that is neither provisional nor an object has always been what it is. -/
theorem Becomes.union_of {a : Shape} {ms : List Ty} (h : a.Becomes (.union ms)) :
    a = .union ms := by
  cases h; rfl

theorem Becomes.eq_of_pointer {p : Option Ty} {b : Shape} (h : (Shape.pointer p).Becomes b) :
    b = .pointer p := by
  cases h; rfl

theorem isProvisional_iff {s : Shape} : s.isProvisional = true ↔ ∃ p, s = .provisional p := by
  cases s <;> simp [isProvisional]

end Shape

namespace Catalog

/-! ## Reading entries -/

theorem shape_push (c : Catalog) (s : Shape) (t : Ty) :
    (c.push s).2.shape t = if t.index = c.size then s else c.shape t := by
  unfold push shape size
  rw [Array.getElem?_push]
  split <;> rfl

theorem size_push (c : Catalog) (s : Shape) : (c.push s).2.size = c.size + 1 := by
  simp [push, size]

theorem shape_setShape (c : Catalog) (t u : Ty) (s : Shape) :
    (c.setShape t s).shape u =
      if u.index = t.index ∧ t.index < c.size then s else c.shape u := by
  unfold setShape shape size
  rw [Array.getElem?_setIfInBounds]
  by_cases h : t.index = u.index
  · by_cases hb : t.index < c.shapes.size
    · simp [h ▸ hb, h]
    · simp [h ▸ hb, h]
  · have : ¬ u.index = t.index := fun e => h e.symm
    simp [h, this]

theorem size_setShape (c : Catalog) (t : Ty) (s : Shape) : (c.setShape t s).size = c.size := by
  simp [setShape, size]

/-- A handle that was never given out reads as an empty union. -/
theorem shape_of_size_le {c : Catalog} {t : Ty} (h : c.size ≤ t.index) : c.shape t = .union [] := by
  unfold shape
  rw [Array.getElem?_eq_none h]
  rfl

theorem lt_size_of_provisional {c : Catalog} {t : Ty} {p : Provisional}
    (h : c.shape t = .provisional p) : t.index < c.size := by
  refine Nat.lt_of_not_le fun hle => ?_
  rw [shape_of_size_le hle] at h
  cases h

section Entries

variable {c c' : Catalog} (h : c'.shapes = c.shapes)

include h

theorem shape_of_shapes_eq (t : Ty) : c'.shape t = c.shape t := by
  unfold shape
  rw [h]

theorem size_of_shapes_eq : c'.size = c.size := congrArg Array.size h

theorem resolve_of_shapes_eq (t : Ty) : c'.resolve t = c.resolve t := by
  have hwithin : ∀ bound t, c'.resolveWithin bound t = c.resolveWithin bound t := by
    intro bound
    induction bound with
    | zero => exact fun _ => rfl
    | succ bound ih =>
      intro t
      unfold resolveWithin
      rw [shape_of_shapes_eq h]
      simp only [ih]
  unfold resolve
  rw [size_of_shapes_eq h, hwithin]

theorem resolvedShape_of_shapes_eq (t : Ty) : c'.resolvedShape t = c.resolvedShape t := by
  rw [resolvedShape, resolvedShape, resolve_of_shapes_eq h, shape_of_shapes_eq h]

theorem cls?_of_shapes_eq (t : Ty) : c'.cls? t = c.cls? t :=
  congrArg Shape.cls? (resolvedShape_of_shapes_eq h t)

theorem isMeta_of_shapes_eq (t : Ty) : c'.isMeta t = c.isMeta t := by
  rw [isMeta, isMeta, resolvedShape_of_shapes_eq h]

end Entries

/-- A type that is entered and not provisional. -/
def Definite (c : Catalog) (t : Ty) : Prop :=
  t.index < c.size ∧ (c.shape t).isProvisional = false

/-- A type that can be a member of a union: definite and no union itself. -/
def Single (c : Catalog) (t : Ty) : Prop := c.Definite t ∧ (c.shape t).isUnion = false

instance (c : Catalog) (t : Ty) : Decidable (c.Definite t) :=
  inferInstanceAs (Decidable (_ ∧ _))

instance (c : Catalog) (t : Ty) : Decidable (c.Single t) :=
  inferInstanceAs (Decidable (_ ∧ _))

/-- Provisional types lead to other types: the target of a live one is definite, and the successor
of a superseded one is a later provisional type. -/
def Grounded (c : Catalog) : Prop :=
  ∀ t p, c.shape t = .provisional p →
    match p.standing with
    | .pending u | .settled u => c.Definite u
    | .superseded u => t.index < u.index ∧ (c.shape u).isProvisional = true

theorem Grounded.target {c : Catalog} (hc : c.Grounded) {t u : Ty} {p : Provisional}
    (h : c.shape t = .provisional p) (hu : p.standing.target? = some u) : c.Definite u := by
  have := hc t p h
  cases hs : p.standing <;> simp_all [Standing.target?]

/-! ## What a type stands for -/

theorem resolveWithin_of_not_provisional {c : Catalog} {t : Ty}
    (h : (c.shape t).isProvisional = false) (bound : Nat) : c.resolveWithin bound t = t := by
  cases bound with
  | zero => rfl
  | succ b =>
    unfold resolveWithin
    split
    · next heq => rw [heq] at h; simp [Shape.isProvisional] at h
    · rfl

theorem resolve_of_definite {c : Catalog} {t : Ty} (h : c.Definite t) : c.resolve t = t :=
  resolveWithin_of_not_provisional h.2 _

/-- A live provisional type stands for its target. -/
theorem resolve_of_live {c : Catalog} {t u : Ty} {p : Provisional}
    (h : c.shape t = .provisional p) (hu : p.standing.target? = some u) : c.resolve t = u := by
  unfold resolve resolveWithin
  rw [h]
  cases hs : p.standing <;> simp_all [Standing.target?]

/-- Following successors ends before the bound, since each is later than the one before. -/
theorem Grounded.resolveWithin_definite {c : Catalog} (hc : c.Grounded) (bound : Nat) {t : Ty}
    (ht : t.index < c.size) (hb : c.size - t.index ≤ bound) :
    c.Definite (c.resolveWithin bound t) := by
  induction bound generalizing t with
  | zero => omega
  | succ b ih =>
    unfold resolveWithin
    split
    · next p hp =>
      have hg := hc t p hp
      split
      · next u hs => simpa [hs] using hg
      · next u hs => simpa [hs] using hg
      · next u hs =>
        simp only [hs] at hg
        -- the successor is nearer to the end of the catalog
        obtain ⟨q, hq⟩ := Shape.isProvisional_iff.mp hg.2
        have hu := lt_size_of_provisional hq
        exact ih hu (by omega)
    · next hp =>
      refine ⟨ht, Bool.eq_false_iff.mpr fun hn => ?_⟩
      obtain ⟨p, hq⟩ := Shape.isProvisional_iff.mp hn
      exact hp p hq

/-- A bound at which following successors ends is as good as any other. -/
theorem Grounded.resolveWithin_eq {c : Catalog} (hc : c.Grounded) {bound : Nat} {t : Ty}
    (ht : t.index < c.size) (hb : c.size - t.index ≤ bound) :
    c.resolveWithin bound t = c.resolve t := by
  unfold resolve
  generalize hbound : c.size + 1 = other
  have hother : c.size - t.index ≤ other := by omega
  clear hbound
  induction bound generalizing t other with
  | zero => omega
  | succ b ih =>
    obtain ⟨b', rfl⟩ : ∃ b', other = b' + 1 := ⟨other - 1, by omega⟩
    rw [resolveWithin, resolveWithin]
    split
    · next p hp =>
      have hg := hc t p hp
      split
      · rfl
      · rfl
      · next u hs =>
        simp only [hs] at hg
        obtain ⟨q, hq⟩ := Shape.isProvisional_iff.mp hg.2
        have hu := lt_size_of_provisional hq
        exact ih hu (by omega) b' (by omega)
    · rfl

theorem Grounded.resolve_definite {c : Catalog} (hc : c.Grounded) {t : Ty} (ht : t.index < c.size) :
    c.Definite (c.resolve t) :=
  hc.resolveWithin_definite _ ht (by omega)

theorem isSuperseded_of_definite {c : Catalog} {t : Ty} (h : c.Definite t) :
    c.isSuperseded t = false := by
  unfold isSuperseded
  split
  · next heq => rw [Definite, heq] at h; simp [Shape.isProvisional] at h
  · rfl

/-- A type that is entered is definite, a live provisional one or a superseded one. -/
theorem live_cases {c : Catalog} {t : Ty} (ht : t.index < c.size) (hl : c.isSuperseded t = false) :
    c.Definite t ∨ ∃ p u, c.shape t = .provisional p ∧ p.standing.target? = some u := by
  cases hp : (c.shape t).isProvisional with
  | false => exact .inl ⟨ht, hp⟩
  | true =>
    obtain ⟨p, hp⟩ := Shape.isProvisional_iff.mp hp
    rw [isSuperseded, hp] at hl
    cases hs : p.standing with
    | pending u => exact .inr ⟨p, u, hp, by simp [hs, Standing.target?]⟩
    | settled u => exact .inr ⟨p, u, hp, by simp [hs, Standing.target?]⟩
    | superseded u => simp [hs, Standing.isSuperseded] at hl

theorem members_of_definite {c : Catalog} {t : Ty} (h : c.Definite t) :
    c.members t = match c.shape t with
      | .union ms => ms
      | _ => [t] := by
  have hresolve := resolve_of_definite h
  cases hs : c.shape t <;> simp only [members, resolvedShape, hresolve, hs]

theorem members_of_single {c : Catalog} {t : Ty} (h : c.Single t) : c.members t = [t] := by
  rw [members_of_definite h.1]
  split
  · next heq => have := h.2; rw [heq] at this; simp [Shape.isUnion] at this
  · rfl

theorem members_of_union {c : Catalog} {t : Ty} {ms : List Ty} (h : c.shape t = .union ms) :
    c.members t = ms := by
  have hp : (c.shape t).isProvisional = false := by rw [h]; rfl
  unfold members resolvedShape resolve
  rw [resolveWithin_of_not_provisional hp, h]

/-- A type has the members of what it stands for. -/
theorem Grounded.members_resolve {c : Catalog} (hc : c.Grounded) {t : Ty} (ht : t.index < c.size) :
    c.members (c.resolve t) = c.members t := by
  have hd := hc.resolve_definite ht
  unfold members resolvedShape
  rw [resolve_of_definite hd]

/-! ## Growth -/

/-- `c'` has all entries of `c`, as far as they are there to stay. -/
structure Grows (c c' : Catalog) : Prop where
  size_le : c.size ≤ c'.size
  shape : ∀ t : Ty, t.index < c.size → (c.shape t).Becomes (c'.shape t)

namespace Grows

variable {c c' d : Catalog}

theorem refl (c : Catalog) : c.Grows c := ⟨Nat.le_refl _, fun _ _ => .same _⟩

theorem trans (h₁ : c.Grows c') (h₂ : c'.Grows d) : c.Grows d :=
  ⟨Nat.le_trans h₁.size_le h₂.size_le, fun t ht =>
    (h₁.shape t ht).trans (h₂.shape t (Nat.lt_of_lt_of_le ht h₁.size_le))⟩

theorem definite (h : c.Grows c') {t : Ty} (ht : c.Definite t) : c'.Definite t :=
  ⟨Nat.lt_of_lt_of_le ht.1 h.size_le, by rw [(h.shape t ht.1).isProvisional_eq]; exact ht.2⟩

theorem single (h : c.Grows c') {t : Ty} (ht : c.Single t) : c'.Single t :=
  ⟨h.definite ht.1, by rw [(h.shape t ht.1.1).isUnion_eq]; exact ht.2⟩

theorem push (c : Catalog) (s : Shape) : c.Grows (c.push s).2 := by
  refine ⟨by rw [size_push]; omega, fun t ht => ?_⟩
  rw [shape_push, if_neg (by omega)]
  exact .same _

theorem setShape {t : Ty} {s : Shape} (h : (c.shape t).Becomes s) : c.Grows (c.setShape t s) := by
  refine ⟨Nat.le_of_eq (size_setShape c t s).symm, fun u hu => ?_⟩
  rw [shape_setShape]
  split
  · next hut =>
    have : u = t := by cases u; cases t; simp_all
    rw [this]; exact h
  · exact .same _

/-- Growth looks at the entries alone. -/
theorem of_shapes_eq (h : c'.shapes = c.shapes) : c.Grows c' := by
  refine ⟨Nat.le_of_eq (size_of_shapes_eq h).symm, fun t _ => ?_⟩
  rw [shape_of_shapes_eq h]
  exact .same _

/-- Superseded types stay superseded. -/
theorem isSuperseded (h : c.Grows c') {t : Ty} (hs : c.isSuperseded t = true) :
    c'.isSuperseded t = true := by
  unfold Catalog.isSuperseded at hs
  split at hs
  · next p hp =>
    have hb := h.shape t (lt_size_of_provisional hp)
    rw [hp] at hb
    unfold Catalog.isSuperseded
    generalize c'.shape t = s at hb ⊢
    cases hb with
    | same => exact hs
    | standing _ st ha =>
      cases hps : p.standing with
      | pending => rw [hps] at hs; simp [Standing.isSuperseded] at hs
      | settled => rw [hps] at hs; simp [Standing.isSuperseded] at hs
      | superseded u => rw [hps] at ha hs; simp only [Standing.Allows] at ha; rw [ha]; exact hs
  · simp at hs

theorem not_isSuperseded (h : c.Grows c') {t : Ty} (hs : c'.isSuperseded t = false) :
    c.isSuperseded t = false := by
  refine Bool.eq_false_iff.mpr fun hn => ?_
  rw [h.isSuperseded hn] at hs
  cases hs

/-- A type that is still live keeps its target. -/
theorem target (h : c.Grows c') {t u : Ty} {p : Provisional} (hp : c.shape t = .provisional p)
    (hu : p.standing.target? = some u) (hl : c'.isSuperseded t = false) :
    ∃ q, c'.shape t = .provisional q ∧ q.standing.target? = some u := by
  have hb := h.shape t (lt_size_of_provisional hp)
  rw [hp] at hb
  unfold Catalog.isSuperseded at hl
  generalize c'.shape t = s at hb hl ⊢
  cases hb with
  | same => exact ⟨p, rfl, hu⟩
  | standing _ st ha =>
    refine ⟨_, rfl, ?_⟩
    cases hps : p.standing <;> simp_all [Standing.Allows, Standing.target?]

/-- A type that is not superseded in the later catalog stands for the same type in both. -/
theorem resolve_eq (h : c.Grows c') {t : Ty} (ht : t.index < c.size)
    (hl : c'.isSuperseded t = false) : c'.resolve t = c.resolve t := by
  rcases live_cases ht (h.not_isSuperseded hl) with hd | ⟨p, u, hp, hu⟩
  · rw [resolve_of_definite hd, resolve_of_definite (h.definite hd)]
  · obtain ⟨q, hq, hqu⟩ := h.target hp hu hl
    rw [resolve_of_live hp hu, resolve_of_live hq hqu]

theorem members_of_definite_eq (h : c.Grows c') {t : Ty} (ht : c.Definite t) :
    c'.members t = c.members t := by
  rw [members_of_definite ht, members_of_definite (h.definite ht)]
  have hb := h.shape t ht.1
  generalize c.shape t = a at hb
  generalize c'.shape t = b at hb
  cases hb <;> rfl

/-- A type that is not superseded in the later catalog has the same members in both. -/
theorem members_eq (h : c.Grows c') (hc : c.Grounded) {t : Ty} (ht : t.index < c.size)
    (hl : c'.isSuperseded t = false) : c'.members t = c.members t := by
  have hd := hc.resolve_definite ht
  have hr := h.resolve_eq ht hl
  have hm : c'.members t = c'.members (c'.resolve t) := by
    unfold members resolvedShape
    rw [hr, resolve_of_definite (h.definite hd)]
  rw [hm, hr, h.members_of_definite_eq hd, hc.members_resolve ht]

end Grows

/-! ## Growth during inference -/

/-- `c'` is what the typing of a program may make of `c`: the types that are added are no
metaclasses, class tables change in their nested types alone, and methods stay. -/
structure Extends (c c' : Catalog) : Prop extends c.Grows c' where
  classTable : ∀ k, ∃ types, c'.classTable k = { c.classTable k with types := types }
  methods : c'.methods = c.methods
  entered : ∀ t : Ty, c.size ≤ t.index → ∀ k u, c'.shape t ≠ .metaclass k u

namespace Extends

variable {c c' d : Catalog}

theorem refl (c : Catalog) : c.Extends c where
  toGrows := .refl c
  classTable k := ⟨_, rfl⟩
  methods := rfl
  entered t ht k u := by rw [shape_of_size_le ht]; exact fun h => by cases h

theorem trans (h₁ : c.Extends c') (h₂ : c'.Extends d) : c.Extends d where
  toGrows := h₁.toGrows.trans h₂.toGrows
  classTable k := by
    obtain ⟨types₁, h₁⟩ := h₁.classTable k
    obtain ⟨types₂, h₂⟩ := h₂.classTable k
    exact ⟨types₂, by rw [h₂, h₁]⟩
  methods := by rw [h₂.methods, h₁.methods]
  entered t ht k u hs := by
    rcases Nat.lt_or_ge t.index c'.size with hlt | hge
    · have hb := h₂.shape t hlt
      rw [hs] at hb
      generalize hq : c'.shape t = q at hb
      cases hb
      exact h₁.entered t ht k u hq
    · exact h₂.entered t hge k u hs

/-- Any entry but a metaclass may be added. -/
theorem push (c : Catalog) {s : Shape} (hs : ∀ k u, s ≠ .metaclass k u) :
    c.Extends (c.push s).2 where
  toGrows := .push c s
  classTable k := ⟨_, rfl⟩
  methods := rfl
  entered t ht k u := by
    rw [shape_push]
    split
    · exact hs k u
    · rw [shape_of_size_le ht]; exact fun h => by cases h

theorem setShape {t : Ty} {s : Shape} (h : (c.shape t).Becomes s) :
    c.Extends (c.setShape t s) where
  toGrows := .setShape h
  classTable k := ⟨_, rfl⟩
  methods := rfl
  entered u hu k v := by
    rw [shape_setShape]
    split
    · next hut => omega
    · rw [shape_of_size_le hu]; exact fun h => by cases h

/-- The table of specializations has no part in it. -/
theorem of_specializations (c : Catalog) (table : Table (Ty × List (String × Ty)) Ty) :
    c.Extends { c with specializations := table } where
  toGrows := .of_shapes_eq rfl
  classTable k := ⟨_, rfl⟩
  methods := rfl
  entered t ht k u := by
    have : c.shape t ≠ .metaclass k u := by
      rw [shape_of_size_le ht]; exact fun h => by cases h
    exact this

end Extends

/-! ## Growth that leaves provisional types alone -/

/-- No provisional type is added, and none changes its standing. -/
def Steady (c c' : Catalog) : Prop := ∀ t p, c'.shape t = .provisional p → c.shape t = .provisional p

namespace Steady

variable {c c' d : Catalog}

theorem refl (c : Catalog) : c.Steady c := fun _ _ h => h

theorem trans (h₁ : c.Steady c') (h₂ : c'.Steady d) : c.Steady d :=
  fun t p h => h₁ t p (h₂ t p h)

theorem push (c : Catalog) {s : Shape} (hs : s.isProvisional = false) : c.Steady (c.push s).2 := by
  intro t p h
  rw [shape_push] at h
  split at h
  · rw [h] at hs; cases hs
  · exact h

theorem of_shapes_eq (h : c'.shapes = c.shapes) : c.Steady c' := by
  intro t p hp
  rwa [shape_of_shapes_eq h] at hp

/-- A provisional type that is there stays what it is. -/
theorem provisional_iff (h : c.Steady c') (hg : c.Grows c') {t : Ty} {p : Provisional} :
    c'.shape t = .provisional p ↔ c.shape t = .provisional p := by
  refine ⟨h t p, fun hp => ?_⟩
  have hb := hg.shape t (lt_size_of_provisional hp)
  rw [hp] at hb
  generalize hs : c'.shape t = s at hb
  cases hb with
  | same => rfl
  | standing _ st _ =>
    have := h t _ hs
    rw [hp] at this
    exact this.symm

end Steady

end Catalog

end FlowTyping
