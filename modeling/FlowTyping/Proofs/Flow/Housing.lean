import FlowTyping.Proofs.Catalog.Rendering
import FlowTyping.Proofs.Flow.Composition
import FlowTyping.Proofs.Flow.Kinship

/-
  Namespaces come first

  A type, a constant and a copy of a generic type are entered after the namespace
  that they are in, and no operation moves one to another namespace
  (`Moved.housed`). What the text of a type contains is entered as well, so in
  every store that operations on entered types lead to, writing a type comes to
  an end as long as namespaces have names (`display_ends`).
-/
namespace FlowTyping

namespace Catalog

variable {c c' : Catalog} {t u : Ty} {s : Shape} {k : ClassHandle} {i j : Nat}

/-! ## Class tables stay where they are -/

/-- The class tables of a catalog are still there, in the same namespaces. -/
def Retains (c c' : Catalog) : Prop :=
  ∀ k : ClassHandle, k.index < c.classes.size →
    k.index < c'.classes.size ∧ (c'.classTable k).container = (c.classTable k).container

namespace Retains

theorem of_classes_eq (h : c'.classes = c.classes) : c.Retains c' := by
  intro k hk
  unfold classTable
  rw [h]
  exact ⟨hk, rfl⟩

theorem modifyClass (c : Catalog) (k : ClassHandle) {f : ClassTable → ClassTable}
    (hf : ∀ table, (f table).container = table.container) : c.Retains (c.modifyClass k f) := by
  intro l hl
  rw [classTable_modifyClass, size_classes_modifyClass]
  refine ⟨hl, ?_⟩
  split
  · exact hf _
  · rfl

theorem enterName (c : Catalog) (scope : Ty) (name : String) (t : Ty) :
    c.Retains (c.enterName scope name t) := by
  unfold Catalog.enterName
  split
  · exact modifyClass c _ fun _ => rfl
  · exact of_classes_eq rfl

theorem defineMethod (c : Catalog) (m : Method) : c.Retains (c.defineMethod m).2 := by
  unfold Catalog.defineMethod
  dsimp only
  split
  · exact modifyClass _ _ fun _ => rfl
  · exact of_classes_eq rfl

theorem pushClass (c : Catalog) (shapes : Array Shape) (table : ClassTable) :
    c.Retains { c with shapes := shapes, classes := c.classes.push table } := by
  intro k hk
  have htable : classTable { c with shapes := shapes, classes := c.classes.push table } k = _ :=
    Sound.classTable_push c table k
  rw [htable, if_neg (Nat.ne_of_lt hk)]
  exact ⟨Nat.lt_of_lt_of_eq (Nat.lt_succ_of_lt hk) (Array.size_push table).symm, rfl⟩

end Retains

/-! ## The invariant -/

/-- An entry at `i` has a class table if its shape has one, and a namespace that comes before it. -/
structure Houses (c : Catalog) (s : Shape) (i : Nat) : Prop where
  table : ∀ k, s.cls? = some k → k.index < c.classes.size
  container : ∀ p, c.containerIn s = some p → p.index < i

theorem containerIn_of_cls? (h : s.cls? = some k) :
    c.containerIn s = (c.classTable k).container := by
  unfold containerIn
  cases s with
  | constant => cases h
  | _ =>
    dsimp only
    rw [h]
    rfl

namespace Houses

theorem retain (h : c.Houses s i) (hretains : c.Retains c') (hle : i ≤ j) : c'.Houses s j := by
  refine ⟨fun k hk => (hretains k (h.table k hk)).1, fun p hp => ?_⟩
  refine Nat.lt_of_lt_of_le (h.container p ?_) hle
  cases hcls : s.cls? with
  | some k =>
    rw [containerIn_of_cls? hcls] at hp ⊢
    rw [← hp]
    exact ((hretains k (h.table k hcls)).2).symm
  | none =>
    unfold containerIn at hp ⊢
    cases s with
    | constant => exact hp
    | _ =>
      dsimp only at hp
      rw [hcls] at hp
      cases hp

/-- It depends on the class table alone where class-like types are. -/
theorem of_cls? {s' : Shape} (h : c.Houses s i) (hs : s.cls? = some k) (hs' : s'.cls? = some k) :
    c.Houses s' i := by
  refine ⟨fun l hl => h.table l (hs.trans (hs'.symm.trans hl)), fun p hp => h.container p ?_⟩
  rw [containerIn_of_cls? hs'] at hp
  rw [containerIn_of_cls? hs]
  exact hp

/-- Unions and provisional types are in no namespace. -/
theorem of_not_isNamed (h : s.isNamed = false) : c.Houses s i := by
  cases s with
  | union | provisional => exact ⟨nofun, nofun⟩
  | _ => cases h

end Houses

structure Housed (c : Catalog) : Prop where
  entry : ∀ t, c.Houses (c.shape t) t.index

namespace Housed

theorem of_retains (hc : c.Housed) (hshapes : c'.shapes = c.shapes) (hretains : c.Retains c') :
    c'.Housed := by
  refine ⟨fun t => ?_⟩
  rw [shape_of_shapes_eq hshapes]
  exact (hc.entry t).retain hretains (Nat.le_refl _)

theorem push (hc : c.Housed) (hs : c.Houses s c.size) : (c.push s).2.Housed := by
  refine ⟨fun t => ?_⟩
  rw [shape_push]
  split
  · next hindex =>
    rw [hindex]
    exact hs.retain (.of_classes_eq rfl) (Nat.le_refl _)
  · exact (hc.entry t).retain (.of_classes_eq rfl) (Nat.le_refl _)

theorem setShape (hc : c.Housed) (hs : c.Houses s t.index) : (c.setShape t s).Housed := by
  refine ⟨fun u => ?_⟩
  rw [shape_setShape]
  split
  · next hindex =>
    rw [hindex.1]
    exact hs.retain (.of_classes_eq rfl) (Nat.le_refl _)
  · exact (hc.entry u).retain (.of_classes_eq rfl) (Nat.le_refl _)

/-! ## Declarations -/

theorem enterName (hc : c.Housed) (scope : Ty) (name : String) (t : Ty) :
    (c.enterName scope name t).Housed := by
  refine hc.of_retains ?_ (.enterName c scope name t)
  unfold Catalog.enterName
  split <;> rfl

theorem defineMethod (hc : c.Housed) (m : Method) : (c.defineMethod m).2.Housed :=
  hc.of_retains (Sound.shapes_defineMethod c m) (.defineMethod c m)

/-- An entry may be added with a class table of its own, in a namespace that is there. -/
theorem pushType (hc : c.Housed) (table : ClassTable) (hs : s.cls? = some ⟨c.classes.size⟩)
    (hcontainer : ∀ p, table.container = some p → p.index < c.size) :
    Housed { c with shapes := c.shapes.push s, classes := c.classes.push table } := by
  refine ⟨fun t => ?_⟩
  change Houses _ ((c.push s).2.shape t) _
  rw [shape_push]
  split
  · next hindex =>
    refine ⟨fun k hk => ?_, fun p hp => ?_⟩
    · cases hs.symm.trans hk
      exact Nat.lt_of_lt_of_eq (Nat.lt_succ_self _) (Array.size_push table).symm
    · have htable : classTable { c with
          shapes := c.shapes.push s, classes := c.classes.push table } ⟨c.classes.size⟩ = _ :=
        Sound.classTable_push c table _
      rw [containerIn_of_cls? hs, htable, if_pos rfl] at hp
      exact Nat.lt_of_lt_of_eq (hcontainer p hp) hindex.symm
  · exact (hc.entry t).retain (.pushClass c _ table) (Nat.le_refl _)

theorem newClassLike (hc : c.Housed) (name : String) {container superclass : Option Ty}
    (hcontainer : ∀ p, container = some p → p.index < c.size) {shape : ClassHandle → Shape}
    (hshape : ∀ k, (shape k).cls? = some k) :
    (c.newClassLike name container superclass shape).2.Housed := by
  have hentered : (c.enterType (.bare name container superclass) shape).Housed := by
    have hpushed := hc.pushType (.bare name container superclass) (hshape _) hcontainer
    unfold enterType
    dsimp only
    split
    · exact hpushed.enterName _ _ _
    · exact hpushed
  have hmeta := hentered.pushType (s := .metaclass _ ⟨c.size⟩)
    (.bare (name ++ ":Class") container none) rfl fun p hp => by
      rw [Sound.size_enterType]
      exact Nat.lt_succ_of_lt (hcontainer p hp)
  exact (hmeta.defineMethod _).defineMethod _

theorem newRecord (hc : c.Housed) (name : String) (fields : Table String Ty) {container : Ty}
    (hcontainer : container.index < c.size) : (c.newRecord name fields container).2.Housed := by
  have hdeclared : (c.newClassLike name (some container) none (.record · fields)).2.Housed :=
    hc.newClassLike name (fun p hp => Option.some.inj hp ▸ hcontainer) fun _ => rfl
  rw [newRecord_eq]
  exact defineMethod (List.foldlRecOn _ _ hdeclared fun _ hd _ _ =>
    (hd.defineMethod _).defineMethod _) _

theorem newConstant (hc : c.Housed) (name : String) (value : Expr) {container : Ty}
    (hcontainer : container.index < c.size) : (c.newConstant name value container).2.Housed := by
  have hpushed : (c.push (.constant name container value)).2.Housed :=
    hc.push ⟨nofun, fun p hp => Option.some.inj hp ▸ hcontainer⟩
  exact hpushed.enterName _ _ _

theorem includeMixin (hc : c.Housed) {included : Ty} (h : c.includeMixin t included = .ok c') :
    c'.Housed := by
  obtain ⟨-, k, -, rfl⟩ := Layered.includeMixin_ok h
  exact hc.of_retains rfl (.modifyClass c k fun table => by split <;> rfl)

theorem setSlot (hc : c.Housed) (t : Ty) (name : String) (u : Ty) : (c.setSlot t name u).Housed := by
  unfold Catalog.setSlot resolvedShape
  split
  · next o ho =>
    have hold := hc.entry (c.resolve t)
    rw [ho] at hold
    exact hc.setShape (hold.of_cls? rfl rfl)
  · exact hc

/-! ## Types made of other types -/

theorem merge (hc : c.Housed) (ts : List Ty) : (c.merge ts).2.Housed := by
  have hunion : (c.union (c.live ts)).2.Housed := by
    unfold union
    split
    · exact hc
    · exact hc.push (.of_not_isNamed rfl)
  unfold Catalog.merge
  split
  · exact hc
  · exact hc
  · exact hunion

theorem pointerFor (hc : c.Housed) (hpointer : c.shape .pointer = .pointer none) (t : Ty) :
    (c.pointerFor t).2.Housed := by
  unfold Catalog.pointerFor
  dsimp only
  split
  · exact hc
  · have hold := hc.entry .pointer
    rw [hpointer] at hold
    have hle : Ty.pointer.index ≤ c.size :=
      Nat.le_of_lt (lt_size_of_cls? (k := .pointer) (by rw [hpointer]; rfl))
    exact hc.push ((hold.of_cls? rfl rfl).retain (.of_classes_eq rfl) hle)

theorem pushCopy (hc : c.Housed) {o : ObjectShape} (ho : c.shape t = .object o)
    (bindings : List (String × Ty)) : (c.push (.object (copyOf t o bindings))).2.Housed := by
  have hold := hc.entry t
  rw [ho] at hold
  exact hc.push ((hold.of_cls? rfl rfl).retain (.of_classes_eq rfl)
    (Nat.le_of_lt (lt_size_of_object ho)))

theorem specialize (hc : c.Housed) (template : Ty) (bindings : List (String × Ty)) :
    (c.specialize template bindings).2.Housed := by
  by_cases hobject : ∃ o, c.shape template = .object o
  · obtain ⟨o, ho⟩ := hobject
    rw [specialize_of_object ho]
    exact hc.pushCopy ho bindings
  · unfold Catalog.specialize
    split
    · next o ho => exact absurd ⟨o, ho⟩ hobject
    · exact hc

theorem instantiate (hc : c.Housed) (horderly : c.Orderly) {bindings : List (String × Ty)}
    {target : Ty} (h : c.instantiate t bindings = .ok (target, c')) : c'.Housed := by
  obtain ⟨template, -, ⟨-, rfl⟩ | ⟨o, ho, -, -, rfl⟩⟩ := horderly.instantiate_ok h
  · exact hc
  · exact (hc.pushCopy ho (c.bindingKey bindings)).of_retains rfl (.of_classes_eq rfl)

/-! ## All operations -/

theorem perform (hc : c.Housed) (hpointer : c.shape .pointer = .pointer none) (horderly : c.Orderly)
    {r : Request} (hr : c.Knows r) : (c.perform r).Housed := by
  cases r with
  | mixin name container =>
    exact hc.newClassLike name (fun p hp => hr p (Option.mem_toList.mpr hp)) fun _ => rfl
  | primitive name superclass width container =>
    refine hc.newClassLike name (fun p hp => ?_) fun _ => rfl
    exact Option.some.inj hp ▸ hr container (List.mem_cons_of_mem _ List.mem_cons_self)
  | object name superclass container generic =>
    show (c.newObject name superclass container generic).2.Housed
    rw [newObject_eq]
    refine (hc.newClassLike name (fun p hp => ?_) fun _ => rfl).defineMethod _
    exact Option.some.inj hp ▸ hr container (List.mem_append_right _ List.mem_cons_self)
  | record name fields container =>
    exact hc.newRecord name _ (hr container (List.mem_append_right _ List.mem_cons_self))
  | constant name value container => exact hc.newConstant name value (hr container List.mem_cons_self)
  | name scope name t => exact hc.enterName scope name t
  | method m => exact hc.defineMethod m
  | inclusion t included =>
    show ((c.includeMixin t included).toOption.getD c).Housed
    cases h : c.includeMixin t included with
    | error e => exact hc
    | ok c' => exact hc.includeMixin h
  | slot t name u => exact hc.setSlot t name u
  | merge ts => exact hc.merge ts
  | pointer t => exact hc.pointerFor hpointer t
  | copy template bindings => exact hc.specialize template bindings
  | specialization t bindings =>
    show (((c.instantiate t bindings).toOption.map (·.2)).getD c).Housed
    cases h : c.instantiate t bindings with
    | error e => exact hc
    | ok made => exact hc.instantiate horderly h

end Housed

/-- The element type is what the type of a buffer points to, so it comes before that. -/
theorem Composed.lt_size_of_elementType (hc : c.Composed) {o : ObjectShape}
    (hu : c.elementType o = some u) : u.index < c.size := by
  obtain ⟨name, -, hu⟩ := Option.bind_eq_some_iff.mp hu
  obtain ⟨type, -, hu⟩ := Option.bind_eq_some_iff.mp hu
  obtain ⟨buffer, -, hu⟩ := Option.bind_eq_some_iff.mp hu
  have hbuffer := hc.entry (c.resolve buffer)
  unfold pointee? at hu
  split at hu
  · next pointee hpointer =>
    have hshape : c.shape (c.resolve buffer) = .pointer pointee := hpointer
    rw [hshape] at hbuffer
    exact Nat.lt_trans (hbuffer u hu) (lt_size_of_isNamed (hshape ▸ rfl))
  · cases hu

theorem housed_seeded : seeded.Housed := by
  have hbefore : ∀ i < seeded.size, ∀ p ∈ seeded.containerOf ⟨i⟩, p.index < i := by decide +kernel
  refine ⟨fun t => ?_⟩
  rcases Nat.lt_or_ge t.index seeded.size with hlt | hge
  · exact ⟨fun k hk => kindred_seeded.tables t k hk, fun p hp => hbefore t.index hlt p hp⟩
  · rw [shape_of_size_le hge]
    exact .of_not_isNamed rfl

end Catalog

namespace Store

variable {s : Store}

theorem Moved.housed (h : s.Moved) : s.catalog.Housed := by
  refine (h.invariant (P := fun c => c.Kindred ∧ c.Housed) (fun c r horderly hr hc => ?_)
    (fun c p hc => ?_) (fun c t p q hp hc => ?_) ⟨Catalog.kindred_seeded, Catalog.housed_seeded⟩).2
  · exact ⟨hc.1.perform horderly hr, hc.2.perform hc.1.pointer horderly hr⟩
  · exact ⟨hc.1.push rfl (fun _ _ h => by cases h) fun _ h => by (cases h),
      hc.2.push (.of_not_isNamed rfl)⟩
  · exact ⟨hc.1.setProvisional hp, hc.2.setShape (.of_not_isNamed rfl)⟩

/-- Writing types comes to an end if namespaces have names. -/
theorem Moved.writable (h : s.Moved)
    (hnamed : ∀ t p, s.catalog.containerOf t = some p → (s.catalog.shape p).isNamed = true) :
    s.catalog.Writable := by
  have hcomposed := h.composed
  refine ⟨h.grounded, fun t u hu => ?_,
    fun t p hp => (h.housed.entry t).container p hp, hnamed⟩
  have ht := Catalog.lt_size_of_shows hu
  have hentry := hcomposed.entry t
  unfold Catalog.Shows at hu
  cases hs : s.catalog.shape t with
  | union members =>
    rw [hs] at hu hentry
    exact Nat.lt_trans (hentry u hu) ht
  | metaclass k subject =>
    rw [hs] at hu
    obtain ⟨rfl, -⟩ := h.kindred.subject t k subject hs
    obtain rfl : u = subject := hu
    exact Nat.lt_of_succ_lt ht
  | pointer pointee =>
    rw [hs] at hu hentry
    exact Nat.lt_trans (hentry u hu) ht
  | object o =>
    rw [hs] at hu hentry
    rcases hu with hu | ⟨slot, hslot, hu⟩
    · exact hcomposed.lt_size_of_elementType hu
    · exact hentry.2 slot hslot u hu
  | _ => rw [hs] at hu; cases hu

/-- Writing a type comes to an end. In every store that operations on entered types lead to, and
whose namespaces are class-like types or constants, writing any type with an empty list of types
that are being written ends with its text and an empty list, also if the type contains itself, and
writing its name ends with the name. Whenever another type comes to be written in the course of
this, the list has the types around it, each once, and writing it ends with the same list. It is
written as three dots if it stands for one of the types around it, and otherwise as what it consists
of. -/
theorem display_ends (h : s.Moved)
    (hnamed : ∀ t p, s.catalog.containerOf t = some p → (s.catalog.shape p).isNamed = true)
    (t : Ty) :
    (∀ text left, s.catalog.Renders [] t text left ↔ text = s.catalog.display t ∧ left = []) ∧
    (∀ name, s.catalog.NamedAs t name ↔ name = s.catalog.scopedName t) ∧
    ∀ within visiting u, s.catalog.Comes t within visiting u →
      visiting = within.map s.catalog.resolve ∧ visiting.Nodup ∧
      ∃ text, (∀ text' left,
          s.catalog.Renders visiting u text' left ↔ text' = text ∧ left = visiting) ∧
        if s.catalog.resolve u ∈ within.map s.catalog.resolve then text = "..."
        else s.catalog.RendersAll (s.catalog.resolve u :: visiting)
          (s.catalog.pieces (s.catalog.resolve u)) text (s.catalog.resolve u :: visiting) := by
  have hc := h.writable hnamed
  refine ⟨fun _ _ => hc.renders_display_iff, fun _ => hc.names_iff_scopedName,
    fun within visiting u hcomes => ?_⟩
  obtain ⟨heq, hnodup, -⟩ := hc.visiting_of_comes hcomes
  exact ⟨heq, hnodup, hc.renders_of_comes hcomes⟩

/-- It is enough that the namespaces of entered types have names. -/
theorem named_of_entered {c : Catalog}
    (h : ∀ i < c.size, ∀ p ∈ c.containerOf ⟨i⟩, (c.shape p).isNamed = true) (t p : Ty)
    (hp : c.containerOf t = some p) : (c.shape p).isNamed = true := by
  rcases Nat.lt_or_ge t.index c.size with hlt | hge
  · exact h t.index hlt p hp
  · rw [Catalog.containerOf, Catalog.shape_of_size_le hge] at hp
    cases hp

/-- A generic type in a module, a copy of it, and a pointer type and a union that the copy is made
of and that are made of the copy. -/
def selfContaining : Store := ⟨Catalog.seeded.performAll [
  .mixin "Outer" (some .main), .object "Box" (some .object) ⟨36⟩ true,
  .copy ⟨38⟩ [("@x", .int)], .pointer ⟨40⟩, .merge [⟨40⟩, .nil],
  .slot ⟨40⟩ "@x" ⟨41⟩, .slot ⟨40⟩ "@y" ⟨42⟩], .empty 0⟩

theorem moved_selfContaining : selfContaining.Moved := (Moved.start 0).requests (by decide +kernel)

/-- The pointer type comes to be written again inside the copy. -/
theorem comes_selfContaining :
    selfContaining.catalog.Comes ⟨41⟩ [⟨40⟩, ⟨41⟩] [⟨40⟩, ⟨41⟩] ⟨41⟩ := by
  obtain ⟨hresolve, hresolve', hpointer, hcopy, hname, hinner, houter, htop⟩ :
      selfContaining.catalog.resolve ⟨41⟩ = ⟨41⟩ ∧ selfContaining.catalog.resolve ⟨40⟩ = ⟨40⟩ ∧
      selfContaining.catalog.pieces ⟨41⟩ = [.text "Pointer<"] ++ .part ⟨40⟩ :: [.text ">"] ∧
      selfContaining.catalog.pieces ⟨40⟩ =
        [.name ⟨40⟩, .text "<", .text "@x", .text ": "] ++ .part ⟨41⟩ ::
          [.text ", ", .text "@y", .text ": ", .part ⟨42⟩, .text ">"] ∧
      selfContaining.catalog.nameAndContainer ⟨40⟩ = some ("Box", some ⟨36⟩) ∧
      selfContaining.catalog.isOutermost ⟨36⟩ = false ∧
      selfContaining.catalog.nameAndContainer ⟨36⟩ = some ("Outer", some .main) ∧
      selfContaining.catalog.isOutermost .main = true := by decide +kernel
  have hbox : selfContaining.catalog.NamedAs ⟨40⟩ ("Outer" ++ "::" ++ "Box") :=
    .inside hname hinner (.atTop houter htop)
  have hinside : selfContaining.catalog.Comes ⟨41⟩ [⟨41⟩] [⟨41⟩] ⟨40⟩ :=
    Catalog.Comes.start.inside hresolve List.not_mem_nil hpointer (.text .nil)
  exact hinside.inside hresolve' (by decide) hcopy (.name hbox (.text (.text (.text .nil))))

/-- The text of the pointer type has dots where this type would stand in it, in the text of the
copy. -/
theorem display_ends_selfContaining :
    (∀ text left, selfContaining.catalog.Renders [] ⟨41⟩ text left ↔
      text = "Pointer<Outer::Box<@x: ..., @y: (Nil | ...)>>" ∧ left = []) ∧
    ∀ text left, selfContaining.catalog.Renders [⟨40⟩, ⟨41⟩] ⟨41⟩ text left ↔
      text = "..." ∧ left = [⟨40⟩, ⟨41⟩] := by
  obtain ⟨hnamed, hshown, hon⟩ :
      (∀ i < selfContaining.catalog.size, ∀ p ∈ selfContaining.catalog.containerOf ⟨i⟩,
        (selfContaining.catalog.shape p).isNamed = true) ∧
      selfContaining.catalog.display ⟨41⟩ = "Pointer<Outer::Box<@x: ..., @y: (Nil | ...)>>" ∧
      selfContaining.catalog.resolve ⟨41⟩ ∈
        [⟨40⟩, ⟨41⟩].map selfContaining.catalog.resolve := by decide +kernel
  obtain ⟨hends, -, hcomes⟩ := display_ends moved_selfContaining (named_of_entered hnamed) ⟨41⟩
  refine ⟨hshown ▸ hends, ?_⟩
  obtain ⟨-, -, text, hagain, hdots⟩ := hcomes _ _ _ comes_selfContaining
  rw [if_pos hon] at hdots
  exact hdots ▸ hagain

end Store

end FlowTyping
