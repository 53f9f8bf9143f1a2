import FlowTyping.Proofs.Catalog.Contained
import FlowTyping.Proofs.Catalog.Interchange
import FlowTyping.Proofs.Flow.Ancestry
import FlowTyping.Proofs.Flow.Invariance

/-
  Class tables and metaclasses

  Class tables are shared by types that take their parents from them and by no
  others, they lead to entered types, and the entry behind a class-like type
  that is no copy of another one is its metaclass. All of this is kept by every
  operation (`Moved.kindred`), also where unions and provisional types have been
  entered and hierarchies go in circles.

  So types with one class table have the same parents (`Kindred.parents_congr`),
  parents and namespaces are entered types, and what a metaclass belongs to is
  no metaclass itself.
-/
namespace FlowTyping

/-- The types that a class table leads to: its includes, its superclass and its namespace. -/
def ClassTable.neighbours (table : ClassTable) : List Ty :=
  table.relatives ++ table.container.toList

/-- Class-like shapes that are no metaclass and share the class table of no other one. -/
def Shape.isOriginal : Shape → Bool
  | .primitive _ _ | .mixin _ | .record _ _ => true
  | .object o => o.template.isNone
  | .pointer pointee => pointee.isNone
  | _ => false

theorem Shape.Becomes.isOriginal_eq {a b : Shape} (h : a.Becomes b) :
    b.isOriginal = a.isOriginal := by
  cases h <;> rfl

theorem Shape.Becomes.metaclass_iff {a b : Shape} (h : a.Becomes b) {k : ClassHandle} {u : Ty} :
    b = .metaclass k u ↔ a = .metaclass k u := by
  cases h with
  | same => rfl
  | slots => exact ⟨fun h => by (cases h), fun h => by (cases h)⟩
  | standing => exact ⟨fun h => by (cases h), fun h => by (cases h)⟩

/-- The type that a metaclass belongs to. -/
def Shape.subject? : Shape → Option Ty
  | .metaclass _ u => some u
  | _ => none

theorem Shape.subject?_eq_some_iff {s : Shape} {u : Ty} :
    s.subject? = some u ↔ ∃ k, s = .metaclass k u := by
  cases s <;> simp [subject?]

theorem Shape.exists_cls {s : Shape} (h : s.isOriginal = true) : ∃ k, s.cls? = some k := by
  cases s with
  | primitive k _ => exact ⟨k, rfl⟩
  | object o => exact ⟨o.cls, rfl⟩
  | mixin k => exact ⟨k, rfl⟩
  | pointer _ => exact ⟨.pointer, rfl⟩
  | record k _ => exact ⟨k, rfl⟩
  | _ => cases h

namespace Catalog

variable {c c' : Catalog} {t u included : Ty} {s : Shape} {k : ClassHandle} {n : Nat}

/-! ## What class tables lead to -/

/-- All class tables lead to types below some index. -/
def Bounded (c : Catalog) (n : Nat) : Prop :=
  ∀ k, ∀ p ∈ (c.classTable k).neighbours, p.index < n

namespace Bounded

theorem mono {m : Nat} (hc : c.Bounded n) (hle : n ≤ m) : c.Bounded m :=
  fun k p hp => Nat.lt_of_lt_of_le (hc k p hp) hle

theorem modifyClass (hc : c.Bounded n) (k : ClassHandle) {f : ClassTable → ClassTable}
    (hf : ∀ table, ∀ p ∈ (f table).neighbours, p ∈ table.neighbours ∨ p.index < n) :
    (c.modifyClass k f).Bounded n := by
  intro l p hp
  rw [classTable_modifyClass] at hp
  split at hp
  · exact (hf _ p hp).elim (hc l p) id
  · exact hc l p hp

theorem pushClass (hc : c.Bounded n) {table : ClassTable}
    (htable : ∀ p ∈ table.neighbours, p.index < n) (shapes : Array Shape) :
    Bounded { c with shapes := shapes, classes := c.classes.push table } n := by
  intro k p hp
  have heq : classTable { c with shapes := shapes, classes := c.classes.push table } k = _ :=
    Sound.classTable_push c table k
  rw [heq] at hp
  split at hp
  · exact htable p hp
  · exact hc k p hp

theorem enterName (hc : c.Bounded n) (scope : Ty) (name : String) (t : Ty) :
    (c.enterName scope name t).Bounded n := by
  unfold Catalog.enterName
  split
  · exact hc.modifyClass _ fun _ _ hp => .inl hp
  · exact hc

theorem defineMethod (hc : c.Bounded n) (m : Method) : (c.defineMethod m).2.Bounded n := by
  have hpushed : Bounded { c with methods := c.methods.push m } n := hc
  unfold Catalog.defineMethod
  dsimp only
  split
  · exact hpushed.modifyClass _ fun _ _ hp => .inl hp
  · exact hpushed

theorem newClassLike (hc : c.Bounded n) (name : String) {container superclass : Option Ty}
    (hcontainer : ∀ u, container = some u → u.index < n)
    (hsuper : ∀ u, superclass = some u → u.index < n) (shape : ClassHandle → Shape) :
    (c.newClassLike name container superclass shape).2.Bounded n := by
  have htable : ∀ (name : String) (superclass : Option Ty),
      (∀ u, superclass = some u → u.index < n) →
      ∀ p ∈ (ClassTable.bare name container superclass).neighbours, p.index < n := by
    intro name superclass hsuper p hp
    rcases List.mem_append.mp hp with hp | hp
    · rcases List.mem_append.mp hp with hp | hp
      · cases hp
      · exact hsuper p (Option.mem_toList.mp hp)
    · exact hcontainer p (Option.mem_toList.mp hp)
  have hpushed := hc.pushClass (htable name superclass hsuper)
    (c.shapes.push (shape ⟨c.classes.size⟩))
  have hentered : (c.enterType (.bare name container superclass) shape).Bounded n := by
    unfold enterType
    dsimp only
    split
    · exact hpushed.enterName _ _ _
    · exact hpushed
  have hmeta := hentered.pushClass (htable (name ++ ":Class") none fun _ h => by cases h)
  exact ((hmeta _).defineMethod _).defineMethod _

end Bounded

/-! ## New class-like types -/

theorem size_classes_modifyClass (c : Catalog) (k : ClassHandle) (f : ClassTable → ClassTable) :
    (c.modifyClass k f).classes.size = c.classes.size := Array.size_modify ..

theorem size_classes_defineMethod (c : Catalog) (m : Method) :
    (c.defineMethod m).2.classes.size = c.classes.size := by
  unfold defineMethod
  dsimp only
  split
  · exact size_classes_modifyClass _ _ _
  · rfl

theorem size_classes_enterType (c : Catalog) (table : ClassTable) (shape : ClassHandle → Shape) :
    (c.enterType table shape).classes.size = c.classes.size + 1 := by
  have hpushed : (c.classes.push table).size = c.classes.size + 1 := Array.size_push table
  unfold enterType
  dsimp only
  split
  · unfold enterName
    split
    · rw [size_classes_modifyClass, hpushed]
    · exact hpushed
  · exact hpushed

/-- A class-like type and its metaclass take two places and have two class tables. -/
theorem size_classes_newClassLike (c : Catalog) (name : String) (container superclass : Option Ty)
    (shape : ClassHandle → Shape) :
    (c.newClassLike name container superclass shape).2.classes.size = c.classes.size + 2 := by
  unfold newClassLike enterMetaclass defineBuiltin
  dsimp only
  rw [size_classes_defineMethod, size_classes_defineMethod, Array.size_push, size_classes_enterType]

theorem shape_newClassLike (c : Catalog) (name : String) (container superclass : Option Ty)
    (shape : ClassHandle → Shape) (t : Ty) :
    (c.newClassLike name container superclass shape).2.shape t =
      if t.index = c.size + 1 then .metaclass ⟨c.classes.size + 1⟩ ⟨c.size⟩
      else if t.index = c.size then shape ⟨c.classes.size⟩ else c.shape t := by
  let entered := c.enterType (.bare name container superclass) shape
  have hshapes : (c.newClassLike name container superclass shape).2.shapes =
      entered.shapes.push (.metaclass ⟨entered.classes.size⟩ ⟨c.size⟩) := by
    unfold newClassLike enterMetaclass defineBuiltin
    dsimp only
    rw [Sound.shapes_defineMethod, Sound.shapes_defineMethod]
    rfl
  have hpushed := shape_push entered (.metaclass ⟨entered.classes.size⟩ ⟨c.size⟩) t
  rw [Sound.size_enterType, Sound.shape_enterType, size_classes_enterType] at hpushed
  rw [← hpushed]
  unfold Catalog.shape
  rw [hshapes, size_classes_enterType]
  rfl

/-! ## The invariant -/

/-- Class tables, who shares them and where they lead to, and metaclasses. -/
structure Kindred (c : Catalog) : Prop where
  pointer : c.shape .pointer = .pointer none
  tables : ∀ t k, (c.shape t).cls? = some k → k.index < c.classes.size
  /-- Only types with parents of their own share a class table. -/
  shared : ∀ t u k, (c.shape t).cls? = some k → (c.shape u).cls? = some k →
    t = u ∨ (c.shape t).hasParents = true ∧ (c.shape u).hasParents = true
  neighbours : c.Bounded c.size
  /-- A metaclass stands next to the type it belongs to. -/
  subject : ∀ t k u, c.shape t = .metaclass k u → t = u.next ∧ (c.shape u).isOriginal = true
  attended : ∀ t, (c.shape t).isOriginal = true → ∃ k, c.shape t.next = .metaclass k t

namespace Kindred

theorem allotted (hc : c.Kindred) : c.Allotted := ⟨hc.pointer, hc.tables, hc.shared⟩

/-- Growth keeps the invariant if each new type either has a class table of its own or takes its
parents from that of a type that was there, and new metaclasses stand where they belong. -/
theorem grow (hc : c.Kindred) (hadded : c.AddsTables c') (hneighbours : c'.Bounded c'.size)
    (hsubject : ∀ t k u, c.size ≤ t.index → c'.shape t = .metaclass k u →
      t = u.next ∧ (c'.shape u).isOriginal = true)
    (hattended : ∀ t, c.size ≤ t.index → (c'.shape t).isOriginal = true →
      ∃ k, c'.shape t.next = .metaclass k t) : c'.Kindred := by
  have hold : ∀ t, t.index < c.size → (c.shape t).Becomes (c'.shape t) := hadded.grows.shape
  obtain ⟨hpointer, htables, hshared⟩ := hc.allotted.grow hadded
  refine ⟨hpointer, htables, hshared, hneighbours, fun t k u ht => ?_, fun t ht => ?_⟩
  · rcases Nat.lt_or_ge t.index c.size with hlt | hge
    · obtain ⟨rfl, hu⟩ := hc.subject t k u ((hold t hlt).metaclass_iff.mp ht)
      have hult : u.index < c.size := Nat.lt_of_succ_lt hlt
      exact ⟨rfl, (hold u hult).isOriginal_eq ▸ hu⟩
    · exact hsubject t k u hge ht
  · rcases Nat.lt_or_ge t.index c.size with hlt | hge
    · rw [(hold t hlt).isOriginal_eq] at ht
      obtain ⟨k, hk⟩ := hc.attended t ht
      have hnext : t.next.index < c.size := lt_size_of_cls? (k := k) (by rw [hk]; rfl)
      exact ⟨k, (hold _ hnext).metaclass_iff.mpr hk⟩
    · exact hattended t hge ht

/-! ## Entries that share -/

/-- Class tables and methods may change, and standings and slots, if no entry is added. -/
theorem same_size (hc : c.Kindred) (hgrows : c.Grows c') (hsize : c'.size = c.size)
    (hclasses : c'.classes.size = c.classes.size) (hneighbours : c'.Bounded c.size) :
    c'.Kindred := by
  have hnone : ∀ t : Ty, c.size ≤ t.index → c'.shape t = .union [] := fun t ht =>
    shape_of_size_le (hsize ▸ ht)
  refine hc.grow ⟨hgrows, Nat.le_of_eq hclasses.symm, fun t k ht hk => ?_⟩
    (hsize.symm ▸ hneighbours) (fun t k u ht hu => ?_) fun t ht halone => ?_
  · rw [hnone t ht] at hk
    cases hk
  · rw [hnone t ht] at hu
    cases hu
  · rw [hnone t ht] at halone
    cases halone

theorem of_shapes_eq (hc : c.Kindred) (hshapes : c'.shapes = c.shapes)
    (hclasses : c'.classes.size = c.classes.size) (hneighbours : c'.Bounded c.size) : c'.Kindred :=
  hc.same_size (.of_shapes_eq hshapes) (size_of_shapes_eq hshapes) hclasses hneighbours

/-- An entry may be added that has the class table of another one, or none. -/
theorem push (hc : c.Kindred) (horiginal : s.isOriginal = false)
    (hmeta : ∀ k u, s ≠ .metaclass k u)
    (hs : ∀ k, s.cls? = some k → s.hasParents = true ∧
      ∃ u, (c.shape u).cls? = some k ∧ (c.shape u).hasParents = true) : (c.push s).2.Kindred := by
  have hadded : ∀ t, c.size ≤ t.index →
      (c.push s).2.shape t = s ∨ (c.push s).2.shape t = .union [] := by
    intro t ht
    rw [shape_push]
    split
    · exact .inl rfl
    · exact .inr (shape_of_size_le ht)
  refine hc.grow ⟨.push c s, Nat.le_refl _, fun t k ht hk => ?_⟩
    (hc.neighbours.mono (Grows.push c s).size_le) (fun t k u ht hu => ?_) fun t ht halone => ?_
  · rcases hadded t ht with heq | heq
    · rw [heq] at hk
      refine .inr ⟨?_, (hs k hk).2⟩
      rw [heq]
      exact (hs k hk).1
    · rw [heq] at hk
      cases hk
  · rcases hadded t ht with heq | heq
    · exact absurd (heq.symm.trans hu) (hmeta k u)
    · cases heq.symm.trans hu
  · rcases hadded t ht with heq | heq
    · cases horiginal.symm.trans (heq ▸ halone)
    · rw [heq] at halone
      cases halone

theorem setProvisional (hc : c.Kindred) {p q : Provisional} (hp : c.shape t = .provisional p) :
    (c.setShape t (.provisional q)).Kindred := by
  have hshape : ∀ u, (c.setShape t (.provisional q)).shape u = c.shape u ∨
      u = t ∧ (c.setShape t (.provisional q)).shape u = .provisional q := by
    intro u
    rw [shape_setShape]
    split
    · next h => exact .inr ⟨Ty.eq_of_index h.1, rfl⟩
    · exact .inl rfl
  have hcls : ∀ u k, ((c.setShape t (.provisional q)).shape u).cls? = some k →
      (c.setShape t (.provisional q)).shape u = c.shape u := by
    intro u k hk
    rcases hshape u with heq | ⟨-, heq⟩
    · exact heq
    · rw [heq] at hk
      cases hk
  have hback : ∀ u, (c.shape u).isProvisional = false →
      (c.setShape t (.provisional q)).shape u = c.shape u := by
    intro u hu
    rcases hshape u with heq | ⟨rfl, -⟩
    · exact heq
    · rw [hp] at hu
      cases hu
  refine ⟨?_, fun u k hk => ?_, fun u v k hu hv => ?_, ?_, fun u k v hu => ?_, fun u hu => ?_⟩
  · rw [hback _ (by rw [hc.pointer]; rfl)]
    exact hc.pointer
  · exact hc.tables u k (hcls u k hk ▸ hk)
  · have hsameu := hcls u k hu
    have hsamev := hcls v k hv
    rw [hsameu] at hu ⊢
    rw [hsamev] at hv ⊢
    exact hc.shared u v k hu hv
  · rw [size_setShape]
    exact hc.neighbours
  · rw [hcls u k (by rw [hu]; rfl)] at hu
    obtain ⟨hnext, hv⟩ := hc.subject u k v hu
    refine ⟨hnext, ?_⟩
    rw [hback v]
    · exact hv
    · cases hs : c.shape v with
      | provisional => rw [hs] at hv; cases hv
      | _ => rfl
  · obtain ⟨k, hk⟩ := Shape.exists_cls hu
    rw [hcls u k hk] at hu
    obtain ⟨l, hl⟩ := hc.attended u hu
    exact ⟨l, by rw [hback _ (by rw [hl]; rfl), hl]⟩

/-! ## Declarations -/

theorem modifyClass (hc : c.Kindred) (k : ClassHandle) {f : ClassTable → ClassTable}
    (hf : ∀ table, ∀ p ∈ (f table).neighbours, p ∈ table.neighbours ∨ p.index < c.size) :
    (c.modifyClass k f).Kindred :=
  hc.of_shapes_eq rfl (size_classes_modifyClass c k f) (hc.neighbours.modifyClass k hf)

theorem enterName (hc : c.Kindred) (scope : Ty) (name : String) (t : Ty) :
    (c.enterName scope name t).Kindred := by
  unfold Catalog.enterName
  split
  · exact hc.modifyClass _ fun _ _ hp => .inl hp
  · exact hc

theorem defineMethod (hc : c.Kindred) (m : Method) : (c.defineMethod m).2.Kindred :=
  hc.of_shapes_eq (Sound.shapes_defineMethod c m) (size_classes_defineMethod c m)
    (hc.neighbours.defineMethod m)

theorem newClassLike (hc : c.Kindred) (name : String) {container superclass : Option Ty}
    (hcontainer : ∀ u, container = some u → u.index < c.size)
    (hsuper : ∀ u, superclass = some u → u.index < c.size) {shape : ClassHandle → Shape}
    (hshape : ∀ k, (shape k).cls? = some k ∧ (shape k).isOriginal = true) :
    (c.newClassLike name container superclass shape).2.Kindred := by
  have hnew := shape_newClassLike c name container superclass shape
  have hsize : (c.newClassLike name container superclass shape).2.size = c.size + 2 :=
    Contained.size_newClassLike c name container superclass shape
  have hclasses := size_classes_newClassLike c name container superclass shape
  have hneighbours := hc.neighbours.newClassLike name hcontainer hsuper shape
  generalize (c.newClassLike name container superclass shape).2 = d at *
  have hgrows : c.Grows d := ⟨by omega, fun t ht => by
    rw [hnew, if_neg (by omega), if_neg (by omega)]
    exact .same _⟩
  -- the two new types are the only ones with the two new class tables
  have htables : ∀ t k, (d.shape t).cls? = some k → k.index < c.classes.size ∧ t.index < c.size ∨
      t.index = c.size ∧ k.index = c.classes.size ∨
      t.index = c.size + 1 ∧ k.index = c.classes.size + 1 := by
    intro t k hk
    rw [hnew] at hk
    split at hk
    · next ht =>
      cases hk
      exact .inr (.inr ⟨ht, rfl⟩)
    · split at hk
      · next ht =>
        cases (hshape _).1.symm.trans hk
        exact .inr (.inl ⟨ht, rfl⟩)
      · exact .inl ⟨hc.tables t k hk, lt_size_of_cls? hk⟩
  refine hc.grow ⟨hgrows, by omega, fun t k ht hk => .inl ?_⟩ (hneighbours.mono hgrows.size_le)
    (fun t k u ht hu => ?_) fun t ht horiginal => ?_
  · have htk := htables t k hk
    refine ⟨by omega, by omega, fun u hu => Ty.eq_of_index ?_⟩
    have huk := htables u k hu
    omega
  · rw [hnew] at hu
    split at hu
    · next hindex =>
      cases hu
      refine ⟨Ty.eq_of_index hindex, ?_⟩
      rw [hnew, if_neg (by simp), if_pos rfl]
      exact (hshape _).2
    · split at hu
      · have := (hshape ⟨c.classes.size⟩).2
        rw [hu] at this
        cases this
      · rw [shape_of_size_le ht] at hu
        cases hu
  · have hindex : t.index = c.size := by
      rw [hnew] at horiginal
      split at horiginal
      · cases horiginal
      · split at horiginal
        · assumption
        · rw [shape_of_size_le ht] at horiginal
          cases horiginal
    refine ⟨⟨c.classes.size + 1⟩, ?_⟩
    rw [hnew, if_pos (by simp only [Ty.next]; omega), show (⟨c.size⟩ : Ty) = t from
      Ty.eq_of_index hindex.symm]

theorem newRecord (hc : c.Kindred) (name : String) (fields : Table String Ty) {container : Ty}
    (hcontainer : container.index < c.size) : (c.newRecord name fields container).2.Kindred := by
  have hdeclared : (c.newClassLike name (some container) none (.record · fields)).2.Kindred :=
    hc.newClassLike name (fun u hu => Option.some.inj hu ▸ hcontainer) (fun _ h => by cases h)
      fun _ => ⟨rfl, rfl⟩
  rw [newRecord_eq]
  exact defineMethod (List.foldlRecOn _ _ hdeclared fun _ hd _ _ =>
    (hd.defineMethod _).defineMethod _) _

theorem includeMixin (hc : c.Kindred) (hincluded : included.index < c.size)
    (h : c.includeMixin t included = .ok c') : c'.Kindred := by
  obtain ⟨-, k, -, rfl⟩ := Layered.includeMixin_ok h
  refine hc.modifyClass k fun table p hp => ?_
  split at hp
  · exact .inl hp
  · simp only [ClassTable.neighbours, ClassTable.relatives, List.mem_append,
      List.mem_singleton] at hp ⊢
    rcases hp with ((hp | rfl) | hp) | hp
    · exact .inl (.inl (.inl hp))
    · exact .inr hincluded
    · exact .inl (.inl (.inr hp))
    · exact .inl (.inr hp)

theorem setSlot (hc : c.Kindred) (t : Ty) (name : String) (u : Ty) :
    (c.setSlot t name u).Kindred := by
  refine hc.same_size (follows_setSlot c t name u).grows ?_ ?_ ?_
  all_goals unfold Catalog.setSlot
  · split
    · exact size_setShape ..
    · rfl
  · split <;> rfl
  · split
    · exact hc.neighbours
    · exact hc.neighbours

/-! ## Types made of other types -/

theorem pushUnion (hc : c.Kindred) (members : List Ty) : (c.push (.union members)).2.Kindred :=
  hc.push rfl (fun _ _ h => by cases h) fun _ h => by cases h

theorem merge (hc : c.Kindred) (ts : List Ty) : (c.merge ts).2.Kindred := by
  have hunion : (c.union (c.live ts)).2.Kindred := by
    unfold union
    split
    · exact hc
    · exact hc.pushUnion _
  unfold Catalog.merge
  split
  · exact hc
  · exact hc
  · exact hunion

theorem pointerFor (hc : c.Kindred) (t : Ty) : (c.pointerFor t).2.Kindred := by
  unfold Catalog.pointerFor
  dsimp only
  split
  · exact hc
  · refine hc.push rfl (fun _ _ h => by cases h) fun k hk => ⟨rfl, .pointer, ?_⟩
    rw [hc.pointer]
    exact ⟨hk, rfl⟩

theorem pushCopy (hc : c.Kindred) {o : ObjectShape} (ho : c.shape t = .object o)
    (bindings : List (String × Ty)) : (c.push (.object (copyOf t o bindings))).2.Kindred :=
  hc.push rfl (fun _ _ h => by cases h) (Layered.shared_copy ho bindings)

theorem specialize (hc : c.Kindred) (template : Ty) (bindings : List (String × Ty)) :
    (c.specialize template bindings).2.Kindred := by
  by_cases hobject : ∃ o, c.shape template = .object o
  · obtain ⟨o, ho⟩ := hobject
    rw [specialize_of_object ho]
    exact hc.pushCopy ho bindings
  · unfold Catalog.specialize
    split
    · next o ho => exact absurd ⟨o, ho⟩ hobject
    · exact hc

theorem instantiate (hc : c.Kindred) (horderly : c.Orderly) {bindings : List (String × Ty)}
    {target : Ty} (h : c.instantiate t bindings = .ok (target, c')) : c'.Kindred := by
  obtain ⟨template, -, ⟨-, rfl⟩ | ⟨o, ho, -, -, rfl⟩⟩ := horderly.instantiate_ok h
  · exact hc
  · have hcopied := hc.pushCopy ho (c.bindingKey bindings)
    exact hcopied.of_shapes_eq rfl rfl hcopied.neighbours

/-! ## All operations -/

theorem perform (hc : c.Kindred) (horderly : c.Orderly) {r : Request} (hr : c.Knows r) :
    (c.perform r).Kindred := by
  cases r with
  | mixin name container =>
    exact hc.newClassLike name (fun u hu => hr u (Option.mem_toList.mpr hu))
      (fun _ h => by cases h) fun _ => ⟨rfl, rfl⟩
  | primitive name superclass width container =>
    refine hc.newClassLike name (fun u hu => ?_) (fun u hu => ?_) fun _ => ⟨rfl, rfl⟩
    · exact Option.some.inj hu ▸ hr container (List.mem_cons_of_mem _ List.mem_cons_self)
    · exact Option.some.inj hu ▸ hr superclass List.mem_cons_self
  | object name superclass container generic =>
    show (c.newObject name superclass container generic).2.Kindred
    rw [newObject_eq]
    refine (hc.newClassLike name (fun u hu => ?_) (fun u hu => ?_) fun _ => ⟨rfl, rfl⟩).defineMethod _
    · exact Option.some.inj hu ▸ hr container (List.mem_append_right _ List.mem_cons_self)
    · exact hr u (List.mem_append_left _ (Option.mem_toList.mpr hu))
  | record name fields container =>
    exact hc.newRecord name _ (hr container (List.mem_append_right _ List.mem_cons_self))
  | constant name value container =>
    have hpushed := hc.push (s := .constant name container value) rfl (fun _ _ h => by cases h)
      fun _ h => by cases h
    exact hpushed.enterName _ _ _
  | name scope name t => exact hc.enterName scope name t
  | method m => exact hc.defineMethod m
  | inclusion t included =>
    show ((c.includeMixin t included).toOption.getD c).Kindred
    cases h : c.includeMixin t included with
    | error e => exact hc
    | ok c' => exact hc.includeMixin (hr included (List.mem_cons_of_mem _ List.mem_cons_self)) h
  | slot t name u => exact hc.setSlot t name u
  | merge ts => exact hc.merge ts
  | pointer t => exact hc.pointerFor t
  | copy template bindings => exact hc.specialize template bindings
  | specialization t bindings =>
    show (((c.instantiate t bindings).toOption.map (·.2)).getD c).Kindred
    cases h : c.instantiate t bindings with
    | error e => exact hc
    | ok made => exact hc.instantiate horderly h

end Kindred

/-- The built-in types come in pairs, each one and its metaclass. -/
theorem kindred_seeded : seeded.Kindred := by
  have hneighbours : ∀ i < seeded.classes.size, ∀ p ∈ (seeded.classTable ⟨i⟩).neighbours,
      p.index < seeded.size := by decide +kernel
  have hsubject : ∀ i < seeded.size, ∀ u ∈ (seeded.shape ⟨i⟩).subject?,
      (⟨i⟩ : Ty) = u.next ∧ (seeded.shape u).isOriginal = true := by decide +kernel
  have hattended : ∀ i < seeded.size, (seeded.shape ⟨i⟩).isOriginal = true →
      (seeded.shape ⟨i + 1⟩).subject? = some ⟨i⟩ := by decide +kernel
  refine ⟨layered_seeded.pointer, layered_seeded.tables, layered_seeded.shared, fun k p hp => ?_,
    fun t k u ht => ?_, fun t ht => ?_⟩
  · rcases Nat.lt_or_ge k.index seeded.classes.size with hlt | hge
    · exact hneighbours k.index hlt p hp
    · have hnone : seeded.classTable k = default := by
        unfold classTable
        rw [Array.getElem?_eq_none hge]
        rfl
      rw [hnone] at hp
      cases hp
  · have hlt : t.index < seeded.size := lt_size_of_cls? (k := k) (by rw [ht]; rfl)
    exact hsubject t.index hlt u (Shape.subject?_eq_some_iff.mpr ⟨k, ht⟩)
  · obtain ⟨k, hk⟩ := Shape.exists_cls ht
    exact Shape.subject?_eq_some_iff.mp (hattended t.index (lt_size_of_cls? hk) ht)

/-! ## Parents -/

theorem sameClass_iff :
    c.sameClass t u = true ↔ ∃ k, c.cls? t = some k ∧ c.cls? u = some k := by
  unfold sameClass
  constructor
  · intro h
    split at h
    · next k l ht hu => exact ⟨k, ht, eq_of_beq h ▸ hu⟩
    · cases h
  · rintro ⟨k, ht, hu⟩
    rw [ht, hu]
    exact beq_self_eq_true k

theorem parents_of_hasParents (h : (c.resolvedShape t).hasParents = true) (hk : c.cls? t = some k) :
    c.parents t = (c.classTable k).relatives := by
  have hdeclared : c.declaredParents t = (c.classTable k).relatives := by
    rw [declaredParents_eq_if, if_pos h, tableOf, hk]
    rfl
  rw [parents]
  cases hs : c.resolvedShape t with
  | metaclass => rw [hs] at h; cases h
  | _ => exact hdeclared

/-- Types that take no parents from a class table, and are no metaclasses, have none. -/
theorem parents_of_not_hasParents (h : (c.resolvedShape t).hasParents = false)
    (hmeta : c.isMeta t = false) : c.parents t = [] := by
  have hdeclared : c.declaredParents t = [] := by
    rw [declaredParents_eq_if, h]
    rfl
  unfold isMeta at hmeta
  rw [parents]
  cases hs : c.resolvedShape t with
  | metaclass => rw [hs] at hmeta; cases hmeta
  | _ => exact hdeclared

theorem mem_relatives_of_declaredParents (h : u ∈ c.declaredParents t) :
    ∃ k, u ∈ (c.classTable k).relatives := by
  rw [declaredParents_eq_if] at h
  split at h
  · cases hk : c.cls? t with
    | none => rw [tableOf, hk] at h; cases h
    | some k =>
      rw [tableOf, hk] at h
      exact ⟨k, h⟩
  · cases h

/-- Every parent is a superclass or an include, or else a metaclass. -/
theorem relative_or_metaclass_of_mem_parents (h : u ∈ c.parents t) :
    (∃ k, u ∈ (c.classTable k).relatives) ∨ ∃ k v, c.shape u = .metaclass k v := by
  unfold parents at h
  split at h
  · obtain ⟨p, -, hp⟩ := List.mem_filterMap.mp h
    obtain ⟨k, hk⟩ := metaclass?_spec hp
    exact .inr ⟨k, _, hk⟩
  · exact .inl (mem_relatives_of_declaredParents h)

namespace Kindred

theorem shared_of_cls? (hc : c.Kindred) (ht : c.cls? t = some k) (hu : c.cls? u = some k) :
    c.resolve t = c.resolve u ∨
      (c.resolvedShape t).hasParents = true ∧ (c.resolvedShape u).hasParents = true :=
  hc.shared (c.resolve t) (c.resolve u) k ht hu

/-- Types with one class table have the same parents. -/
theorem parents_congr (hc : c.Kindred) (h : c.sameClass t u = true) :
    c.parents t = c.parents u := by
  obtain ⟨k, ht, hu⟩ := sameClass_iff.mp h
  rcases hc.shared_of_cls? ht hu with heq | ⟨htp, hup⟩
  · exact Coincide.parents heq
  · rw [parents_of_hasParents htp ht, parents_of_hasParents hup hu]

theorem lt_of_parents (hc : c.Kindred) (h : u ∈ c.parents t) : u.index < c.size := by
  rcases relative_or_metaclass_of_mem_parents h with ⟨k, hk⟩ | ⟨k, s, hs⟩
  · exact hc.neighbours k u (List.mem_append_left _ hk)
  · exact (definite_of_metaclass hs).1

theorem lt_of_container (hc : c.Kindred) (h : (c.tableOf t).bind (·.container) = some u) :
    u.index < c.size := by
  obtain ⟨table, htable, hu⟩ := Option.bind_eq_some_iff.mp h
  obtain ⟨k, -, rfl⟩ := Option.map_eq_some_iff.mp htable
  exact hc.neighbours k u (List.mem_append_right _ (Option.mem_toList.mpr hu))

end Kindred

end Catalog

theorem Store.Moved.kindred {s : Store} (h : s.Moved) : s.catalog.Kindred :=
  h.invariant (P := Catalog.Kindred) (fun _ _ horderly hr hc => hc.perform horderly hr)
    (fun _ p hc => hc.push (s := .provisional p) rfl (fun _ _ h => by cases h) fun _ h => by cases h)
    (fun _ _ _ _ hp hc => hc.setProvisional hp) Catalog.kindred_seeded

end FlowTyping
