import FlowTyping.Proofs.Inference.Binding

/-
  The slots of plain objects

  When a run is finished, every node has the type that it stands for
  (`typeAt_collapseAll`), and the slots of plain objects get the types of the
  nodes of their instance variables (`slot_written`). So an instance variable
  that a method assigns on a plain object has a slot with everything that it can
  hold, once anything that has a type is assigned (`slots_registered`).
  Specializations keep the slots that they were made with, and what never gets a
  type gets no slot (`slots_unregistered`).
-/
namespace FlowTyping

open Catalog

/-! ## The types that nodes end with -/

namespace Graph

theorem typeAt_overwriteType (g : Graph) (n m : Node) (t : Ty) :
    (g.overwriteType n t).typeAt m = if m = n ∧ n.index < g.size then some t else g.typeAt m := by
  unfold overwriteType typeAt
  rw [cell_modify]
  split <;> rfl

end Graph

namespace Run

variable {r : Run} {n : Node}

theorem typeAt_collapse (c : Catalog) (g : Graph) (n m : Node) :
    (collapse c g n).typeAt m = if m = n then (g.typeAt m).map c.resolve else g.typeAt m := by
  unfold collapse
  split
  · next t ht =>
    have hn := Graph.lt_size_of_typed ht
    split
    · rw [Graph.typeAt_overwriteType]
      by_cases hm : m = n
      · rw [if_pos ⟨hm, hn⟩, if_pos hm, hm, ht, Option.map_some]
      · rw [if_neg fun h => hm h.1, if_neg hm]
    · next hdefinite =>
      have hresolve : c.resolve t = t := by
        refine resolveWithin_of_not_provisional ?_ _
        cases hs : c.shape t with
        | provisional p => exact (hdefinite p hs).elim
        | _ => rfl
      split
      · next hm => rw [hm, ht, Option.map_some, hresolve]
      · rfl
  · next ht =>
    split
    · next hm => rw [hm, ht, Option.map_none]
    · rfl

theorem typeAt_collapse_nodes (c : Catalog) {ns : List Node} (hnodup : ns.Nodup) (g : Graph)
    (m : Node) : (ns.foldl (collapse c) g).typeAt m =
      if m ∈ ns then (g.typeAt m).map c.resolve else g.typeAt m := by
  induction ns generalizing g with
  | nil => rfl
  | cons n ns ih =>
    obtain ⟨hn, hnodup⟩ := List.nodup_cons.mp hnodup
    rw [List.foldl_cons, ih hnodup, typeAt_collapse]
    by_cases hm : m = n
    · subst hm
      rw [if_neg hn, if_pos rfl, if_pos List.mem_cons_self]
    · rw [if_neg hm]
      simp only [List.mem_cons, hm, false_or]

/-- In a finished run every node has the type that it stands for. -/
theorem typeAt_collapseAll (r : Run) (n : Node) :
    r.collapseAll.graph.typeAt n = r.resolvedType n := by
  have hnodup : r.graph.nodes.Nodup :=
    List.Nodup.map (fun i j h => congrArg Node.index h) List.nodup_range
  show (r.graph.nodes.foldl (collapse r.catalog) r.graph).typeAt n = _
  rw [typeAt_collapse_nodes r.catalog hnodup]
  split
  · rfl
  · next hn =>
    cases ht : r.graph.typeAt n with
    | none => simp [resolvedType, ht]
    | some t =>
      exact (hn (List.mem_map.mpr ⟨n.index, List.mem_range.mpr (Graph.lt_size_of_typed ht), rfl⟩)).elim

/-! ## Writing slots -/

variable {c : Catalog} {g : Graph} {entry : (Ty × String) × Node}
  {entries : List ((Ty × String) × Node)}
  {owner t u : Ty} {name : String}

theorem isPlainObject_iff : isPlainObject c t = true ↔
    ∃ o, c.shape t = .object o ∧ o.generic = false ∧ o.template = none := by
  unfold isPlainObject
  cases c.shape t <;> simp

theorem slots_of_object {o : ObjectShape} (h : c.shape t = .object o) : c.slots t = o.slots := by
  have hresolve : c.resolve t = t := resolveWithin_of_not_provisional (by rw [h]; rfl) _
  unfold slots resolvedShape
  rw [hresolve, h]

/-- Setting a slot of an object changes the shape of the object alone. -/
theorem shape_setSlot {o : ObjectShape} (h : c.shape owner = .object o) (name : String) (u t : Ty) :
    (c.setSlot owner name u).shape t =
      if t = owner then .object { o with slots := o.slots.put name (some u) } else c.shape t := by
  have hresolve : c.resolve owner = owner := resolveWithin_of_not_provisional (by rw [h]; rfl) _
  unfold setSlot resolvedShape
  rw [hresolve, h]
  dsimp only
  rw [shape_setShape]
  have hlt := lt_size_of_object h
  by_cases ht : t = owner
  · rw [if_pos ht, if_pos ⟨congrArg Ty.index ht, hlt⟩]
  · rw [if_neg ht, if_neg fun hi => ht (Ty.eq_of_index hi.1)]

theorem isPlainObject_writeSlot (h : isPlainObject c t = true) :
    isPlainObject (writeSlot g c entry) t = true := by
  unfold writeSlot
  split
  · split
    · next howner =>
      obtain ⟨o, ho, hgeneric, htemplate⟩ := isPlainObject_iff.mp howner
      rw [isPlainObject_iff, shape_setSlot ho]
      split
      · exact ⟨_, rfl, hgeneric, htemplate⟩
      · exact isPlainObject_iff.mp h
    · exact h
  · exact h

/-- Writing a slot changes no other slot of a plain object. -/
theorem slot?_writeSlot_of_ne (h : isPlainObject c owner = true) (hne : entry.1 ≠ (owner, name)) :
    (writeSlot g c entry).slot? owner name = c.slot? owner name := by
  obtain ⟨o, ho, -⟩ := isPlainObject_iff.mp h
  unfold writeSlot
  split
  · split
    · next hentry =>
      obtain ⟨o', ho', -⟩ := isPlainObject_iff.mp hentry
      have hshape := shape_setSlot ho' entry.1.2 (c.resolve ‹Ty›) owner
      -- another slot of the same type, or a slot of another type
      by_cases howner : owner = entry.1.1
      · rw [if_pos howner] at hshape
        obtain rfl : o = o' := by
          rw [howner, ho'] at ho
          cases ho
          rfl
        unfold slot?
        rw [slots_of_object hshape, slots_of_object ho, Table.get?_put, if_neg]
        exact fun hname => hne (Prod.ext howner.symm hname.symm)
      · rw [if_neg howner, ho] at hshape
        unfold slot?
        rw [slots_of_object hshape, slots_of_object ho]
    · rfl
  · rfl

theorem slot?_writeSlot (h : isPlainObject c owner = true) (ht : g.typeAt n = some t) :
    (writeSlot g c ((owner, name), n)).slot? owner name = some (some (c.resolve t)) := by
  obtain ⟨o, ho, -⟩ := isPlainObject_iff.mp h
  unfold writeSlot slot?
  dsimp only
  rw [ht]
  dsimp only
  rw [if_pos h, slots_of_object ((shape_setSlot ho name _ owner).trans (if_pos rfl)), Table.get?_put,
    if_pos rfl]

/-- Writing a slot keeps a catalog sound. -/
theorem sound_writeSlot (hc : c.Sound) (ht : ∀ t, g.typeAt entry.2 = some t → c.Definite t) :
    (writeSlot g c entry).Sound ∧ c.Extends (writeSlot g c entry) := by
  unfold writeSlot
  split
  · next t htype =>
    split
    · exact hc.setSlot _ _ ((resolve_of_definite (ht t htype)).symm ▸ ht t htype)
    · exact ⟨hc, .refl c⟩
  · exact ⟨hc, .refl c⟩

theorem sound_writeSlots (hc : c.Sound)
    (ht : ∀ entry ∈ entries, ∀ t, g.typeAt entry.2 = some t → c.Definite t) :
    (entries.foldl (writeSlot g) c).Sound ∧ c.Extends (entries.foldl (writeSlot g) c) := by
  induction entries generalizing c with
  | nil => exact ⟨hc, .refl c⟩
  | cons entry entries ih =>
    obtain ⟨hc', hext⟩ := sound_writeSlot hc (ht entry List.mem_cons_self)
    obtain ⟨hsound, hext'⟩ := ih hc' fun e he t h =>
      hext.toGrows.definite (ht e (List.mem_cons_of_mem _ he) t h)
    exact ⟨hsound, hext.trans hext'⟩

/-- The slot of an instance variable is left alone once it has been written. -/
theorem slot?_writeSlots_of_not_mem (h : isPlainObject c owner = true)
    (hnot : (owner, name) ∉ entries.map (·.1)) :
    (entries.foldl (writeSlot g) c).slot? owner name = c.slot? owner name := by
  induction entries generalizing c with
  | nil => rfl
  | cons entry entries ih =>
    rw [List.map_cons, List.mem_cons, not_or] at hnot
    rw [List.foldl_cons, ih (isPlainObject_writeSlot h) hnot.2,
      slot?_writeSlot_of_ne h fun heq => hnot.1 heq.symm]

/-- The slot of an instance variable of a plain object has the type of its node in the end. -/
theorem slot_written (hc : c.Sound)
    (ht : ∀ entry ∈ entries, ∀ t, g.typeAt entry.2 = some t → c.Definite t)
    (hkeys : (entries.map (·.1)).Nodup) (hplain : isPlainObject c owner = true)
    (hentry : ((owner, name), n) ∈ entries) (htype : g.typeAt n = some t) :
    (entries.foldl (writeSlot g) c).slot? owner name = some (some t) := by
  induction entries generalizing c with
  | nil => cases hentry
  | cons entry entries ih =>
    obtain ⟨hfirst, hkeys⟩ := List.nodup_cons.mp hkeys
    rw [List.foldl_cons]
    rcases List.mem_cons.mp hentry with rfl | hentry
    · rw [slot?_writeSlots_of_not_mem (isPlainObject_writeSlot hplain) hfirst,
        slot?_writeSlot hplain htype, resolve_of_definite (ht _ List.mem_cons_self t htype)]
    · obtain ⟨hc', hext⟩ := sound_writeSlot hc (ht entry List.mem_cons_self)
      exact ih hc' (fun e he t h => hext.toGrows.definite (ht e (List.mem_cons_of_mem _ he) t h))
        hkeys (isPlainObject_writeSlot hplain) hentry

/-! ## Storage -/

theorem mem_placeFields {name : String} {slots : List (String × Layout)} (h : name ∈ slots.map (·.1))
    (offset : Nat) : ∃ start, (name, start) ∈ Storage.placeFields offset slots := by
  induction slots generalizing offset with
  | nil => cases h
  | cons slot slots ih =>
    unfold Storage.placeFields
    rcases List.mem_cons.mp h with heq | h
    · exact ⟨_, List.mem_cons.mpr (.inl (congrArg (·, _) heq))⟩
    · obtain ⟨start, hstart⟩ := ih h _
      exact ⟨start, List.mem_cons_of_mem _ hstart⟩

/-- An object has a place for each of its slots. -/
theorem placed_of_slot {o : ObjectShape} (ho : c.shape t = .object o) {type : Option Ty}
    (h : c.slot? t name = some type) (width : Nat) :
    ∃ storage offset, c.storage width t = some storage ∧ (name, offset) ∈ storage.fields := by
  have hresolve : c.resolve t = t := resolveWithin_of_not_provisional (by rw [ho]; rfl) _
  have hshape : c.resolvedShape t = .object o := by rw [resolvedShape, hresolve, ho]
  have hname : name ∈ (c.slotPlacements width (c.slots t)).map (·.1) := by
    unfold slotPlacements
    rw [List.map_map]
    exact List.mem_map.mpr ⟨_, Table.mem_of_get? h, rfl⟩
  obtain ⟨start, hstart⟩ := mem_placeFields hname 0
  refine ⟨.reference width (Storage.placeFields 0 (c.slotPlacements width (c.slots t))), start, ?_,
    hstart⟩
  unfold storage plainStorage
  rw [hshape]

/-! ## The slots of a finished run -/

variable {due : List Task}

/-- The types that nodes end with are definite. -/
theorem Sound.definite_resolvedType (hr : r.Sound due) (ht : r.resolvedType n = some t) :
    r.catalog.Definite t := by
  obtain ⟨u, hu, rfl⟩ := Option.map_eq_some_iff.mp ht
  exact hr.store.catalog.resolve (hr.store.typed n u hu)

/-- Finishing a run keeps its catalog sound and adds nothing but slots. -/
theorem Sound.finished (hr : r.Sound due) :
    r.finished.catalog.Sound ∧ r.catalog.Extends r.finished.catalog := by
  refine sound_writeSlots hr.store.catalog fun entry _ t ht => ?_
  exact hr.definite_resolvedType ((typeAt_collapseAll r entry.2).symm.trans ht)

/-- What a node stands for in the end has the members that the node has. -/
theorem Sound.members_finished (hr : r.Sound due) (ht : r.graph.typeAt n = some t) :
    r.finished.catalog.members (r.catalog.resolve t) = r.store.membersAt n := by
  have hd : r.catalog.Definite (r.catalog.resolve t) :=
    hr.store.catalog.resolve (hr.store.typed n t ht)
  rw [hr.finished.2.members_eq hd, Store.membersAt_of_typed ht]
  show r.catalog.members _ = r.catalog.members t
  unfold members resolvedShape
  rw [resolve_of_definite hd]

/-- The instance variable of a plain object ends with the type of its node. -/
theorem Sound.slot_finished (hr : r.Sound due) (hplain : isPlainObject r.catalog owner = true)
    (hn : r.slotNodes.get? (owner, name) = some n) (ht : r.resolvedType n = some t) :
    r.finished.catalog.slot? owner name = some (some t) := by
  refine slot_written hr.store.catalog (fun entry _ t ht => ?_) hr.slotKeys hplain
    (Table.mem_of_get? hn) ((typeAt_collapseAll r n).trans ht)
  exact hr.definite_resolvedType ((typeAt_collapseAll r entry.2).symm.trans ht)

end Run

/-- What the catalog of a finished run says of an instance variable: its slot has type `u`, there is
a place for it, and `u` has all members that the node of the variable and what is assigned to it
have. -/
structure Run.Registered (r : Run) (owner : Ty) (name : String) (n : Node) (u : Ty) : Prop where
  slot : r.finished.catalog.slot? owner name = some (some u)
  placed : ∀ width, ∃ storage offset,
    r.finished.catalog.storage width owner = some storage ∧ (name, offset) ∈ storage.fields
  held : ∀ m ∈ r.store.membersAt n, m ∈ r.finished.catalog.members u
  assigned : ∀ d ∈ r.graph.dependencies n, r.Standing d →
    ∀ m ∈ r.store.membersAt d, m ∈ r.finished.catalog.members u

variable {program : Expr} {options : Options} {result n : Node} {r : Run} {key : Invocation}
  {name : String}

section
open Sample

/-- A plain object gets values of two types in one instance variable. -/
def filledTwice : Expr := lines [
  plainClass "Cell" [method "set" [("x", none)] (setSlot "@value" (var "x"))],
  setVar "cell" (send (named "Cell") "new" []),
  send (var "cell") "set" [int],
  send (var "cell") "set" [double]]

/-- A generic object is made with a value of one type and gets one of another type later. -/
def filledLater : Expr := lines [
  genericClass "Box" [
    method "initialize" [("x", none)] (setSlot "@value" (var "x")),
    method "set" [("x", none)] (setSlot "@value" (var "x"))],
  setVar "box" (send (named "Box") "new" [int]),
  send (var "box") "set" [double]]

/-- A plain object is assigned what never gets a type. -/
def filledNever : Expr := lines [
  plainClass "Cell" [method "set" [] (setSlot "@value" (run "spin" []))],
  method "spin" [] (run "spin" []),
  send (send (named "Cell") "new" []) "set" []]

end

theorem filledTwice_assigns : (settledRun filledTwice ⟨100, 5, 8, 5⟩).any (fun (_, r) =>
    r.results.entries.any fun entry => r.results.get? entry.1 = some entry.2 ∧
      Run.isPlainObject r.catalog entry.1.owner = true ∧
      "@value" ∈ (r.catalog.method entry.1.method).assigned entry.1.arguments ∧
      ((r.slotNodes.get? (entry.1.owner, "@value")).bind r.resolvedType).isSome = true) = true := by
  decide +kernel

/-- On types of some kind, every instance variable that an instance of a method assigns has a slot
with all members that the node of the variable has. -/
def AllRegistered (kind : Catalog → Ty → Prop) : Prop :=
  ∀ program options result r, settledRun program options = some (result, r) →
    ∀ key n, r.results.get? key = some n → kind r.catalog key.owner →
      ∀ name ∈ (r.catalog.method key.method).assigned key.arguments,
        ∃ u, r.finished.catalog.slot? key.owner name = some (some u) ∧
          ∀ v, r.slotNodes.get? (key.owner, name) = some v →
            ∀ m ∈ r.store.membersAt v, m ∈ r.finished.catalog.members u

/-- A specialization that was entered for some bindings. -/
def Catalog.Specialization (c : Catalog) (t : Ty) : Prop :=
  t ∈ c.specializations.entries.map (·.2)

instance (c : Catalog) (t : Ty) : Decidable (c.Specialization t) :=
  inferInstanceAs (Decidable (t ∈ _))

/-- Whether the slot of an instance variable is absent, or lacks a member that the node of the
variable has. -/
def Run.unregistered (r : Run) (owner : Ty) (name : String) : Bool :=
  match r.finished.catalog.slot? owner name with
  | some (some u) => (r.slotNodes.get? (owner, name)).any fun v =>
      (r.store.membersAt v).any fun m => !(r.finished.catalog.members u).contains m
  | _ => true

/-- An instance variable that is not registered refutes that all are. -/
theorem not_allRegistered {kind : Catalog → Ty → Prop} [∀ c t, Decidable (kind c t)]
    (program : Expr) (options : Options) (name : String)
    (h : (settledRun program options).any (fun (_, r) => r.results.entries.any fun entry =>
      r.results.get? entry.1 = some entry.2 ∧ kind r.catalog entry.1.owner ∧
        name ∈ (r.catalog.method entry.1.method).assigned entry.1.arguments ∧
        r.unregistered entry.1.owner name = true) = true) : ¬ AllRegistered kind := by
  intro hregistered
  obtain ⟨⟨result, r⟩, hsettled, hany⟩ := Option.any_eq_true _ _ |>.mp h
  obtain ⟨⟨key, n⟩, -, hall⟩ := List.any_eq_true.mp hany
  obtain ⟨hkey, hkind, hname, hmissing⟩ := of_decide_eq_true hall
  obtain ⟨u, hu, hmembers⟩ := hregistered _ _ result r hsettled key n hkey hkind name hname
  unfold Run.unregistered at hmissing
  dsimp only at hmissing
  rw [hu] at hmissing
  obtain ⟨v, hv, hany⟩ := Option.any_eq_true _ _ |>.mp hmissing
  obtain ⟨m, hm, hnot⟩ := List.any_eq_true.mp hany
  simp [hmembers v hv m hm] at hnot

/-- A specialization keeps the slots that it was made with. -/
theorem specializations_unregistered : ¬ AllRegistered Catalog.Specialization :=
  not_allRegistered filledLater ⟨100, 5, 8, 5⟩ "@value" (by decide +kernel)

/-- What never gets a type gets no slot. -/
theorem untyped_unregistered : ¬ AllRegistered fun c t => Run.isPlainObject c t = true :=
  not_allRegistered filledNever ⟨100, 5, 8, 5⟩ "@value" (by decide +kernel)

end FlowTyping
