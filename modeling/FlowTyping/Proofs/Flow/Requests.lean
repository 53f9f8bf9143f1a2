import FlowTyping.Proofs.Flow.Chain

/-
  Requests

  A request is one operation on a catalog together with what it is given. A
  request that is refused changes nothing. `Catalog.Knows` holds of a request if
  every type that it mentions is entered, and `Catalog.Reached` of the catalogs
  that requests of some kind lead to from the built-in types.

  Each request is an operation of a session (`perform_change`), so the catalog
  after it follows the one before it.
-/
namespace FlowTyping

open Steps

/-- One operation on a catalog and what it is given. -/
inductive Request where
  | mixin (name : String) (container : Option Ty)
  | primitive (name : String) (superclass : Ty) (width : Nat) (container : Ty)
  | object (name : String) (superclass : Option Ty) (container : Ty) (generic : Bool)
  | record (name : String) (fields : List (String × Ty)) (container : Ty)
  | constant (name : String) (value : Expr) (container : Ty)
  | name (scope : Ty) (name : String) (type : Ty)
  | method (method : Method)
  | inclusion (type included : Ty)
  | slot (type : Ty) (name : String) (content : Ty)
  | merge (types : List Ty)
  | pointer (type : Ty)
  | copy (template : Ty) (bindings : List (String × Ty))
  | specialization (type : Ty) (bindings : List (String × Ty))

/-- The types that a request is about. -/
def Request.mentions : Request → List Ty
  | mixin _ container => container.toList
  | primitive _ superclass _ container => [superclass, container]
  | object _ superclass container _ => superclass.toList ++ [container]
  | record _ fields container => fields.map (·.2) ++ [container]
  | constant _ _ container => [container]
  | name scope _ type => [scope, type]
  | method m => m.types
  | inclusion type included => [type, included]
  | slot type _ content => [type, content]
  | merge types => types
  | pointer type => [type]
  | copy template bindings => template :: bindings.map (·.2)
  | specialization type bindings => type :: bindings.map (·.2)

namespace Catalog

variable {c : Catalog} {r : Request}

/-- The catalog after a request. Of two fields with one name the later one stays, in place of the
earlier; an inclusion or a specialization that is refused leaves the catalog as it is. -/
def perform (c : Catalog) : Request → Catalog
  | .mixin name container => (c.newMixin name container).2
  | .primitive name superclass width container => (c.newPrimitive name superclass width container).2
  | .object name superclass container generic => (c.newObject name superclass container generic).2
  | .record name fields container => (c.newRecord name (.ofList fields) container).2
  | .constant name value container => (c.newConstant name value container).2
  | .name scope name type => c.enterName scope name type
  | .method m => (c.defineMethod m).2
  | .inclusion type included => (c.includeMixin type included).toOption.getD c
  | .slot type name content => c.setSlot type name content
  | .merge types => (c.merge types).2
  | .pointer type => (c.pointerFor type).2
  | .copy template bindings => (c.specialize template bindings).2
  | .specialization type bindings => ((c.instantiate type bindings).toOption.map (·.2)).getD c

/-- Every type that a request mentions is entered. -/
def Knows (c : Catalog) (r : Request) : Prop := ∀ t ∈ r.mentions, t.index < c.size

instance (c : Catalog) (r : Request) : Decidable (c.Knows r) :=
  inferInstanceAs (Decidable (∀ t ∈ r.mentions, t.index < c.size))

/-- The catalog after some requests, one after the other. -/
def performAll (c : Catalog) (rs : List Request) : Catalog := rs.foldl perform c

/-- Each of the requests mentions only types that are entered by then. -/
def KnowsAll : Catalog → List Request → Prop
  | _, [] => True
  | c, r :: rs => c.Knows r ∧ KnowsAll (c.perform r) rs

instance decidableKnowsAll : (c : Catalog) → (rs : List Request) → Decidable (c.KnowsAll rs)
  | _, [] => inferInstanceAs (Decidable True)
  | c, r :: rs =>
    have := decidableKnowsAll (c.perform r) rs
    inferInstanceAs (Decidable (c.Knows r ∧ (c.perform r).KnowsAll rs))

/-- What requests of some kind lead to from the built-in types. -/
inductive Reached (allowed : Catalog → Request → Prop) : Catalog → Prop
  | start : Reached allowed seeded
  | step {c : Catalog} (h : Reached allowed c) (r : Request) (hr : allowed c r) :
      Reached allowed (c.perform r)

/-- A request is an operation of a session, unless it is refused. -/
theorem perform_change (hr : c.Knows r) : c.Change (c.perform r) ∨ c.perform r = c := by
  cases r with
  | mixin name container => exact .inl (.mixin name container)
  | primitive name superclass width container =>
    exact .inl (.primitive name superclass width container)
  | object name superclass container generic =>
    exact .inl (.object name superclass container generic)
  | record name fields container => exact .inl (.record name _ container)
  | constant name value container => exact .inl (.constant name value container)
  | name scope name t => exact .inl (.name scope name t)
  | method m => exact .inl (.method m)
  | inclusion t included =>
    show c.Change ((c.includeMixin t included).toOption.getD c) ∨ _ = c
    cases h : c.includeMixin t included with
    | error e => exact .inr (by rw [perform, h]; rfl)
    | ok c' => exact .inl (.inclusion t included h)
  | slot t name u => exact .inl (.slot t name u)
  | merge ts => exact .inl (.merge ts hr)
  | pointer t => exact .inl (.pointer t)
  | copy template bindings => exact .inl (.copy template bindings)
  | specialization t bindings =>
    show c.Change (((c.instantiate t bindings).toOption.map (·.2)).getD c) ∨ _ = c
    cases h : c.instantiate t bindings with
    | error e => exact .inr (by rw [perform, h]; rfl)
    | ok made => exact .inl (.specialization t bindings h)

end Catalog

namespace Store

/-- One operation of a session that mentions entered types only. -/
inductive Move (s : Store) : Store → Prop
  | request (r : Request) (hr : s.catalog.Knows r) : Move s ⟨s.catalog.perform r, s.graph⟩
  | add (kind : CellKind) (type : Option Ty) (place : Place)
      (htype : ∀ t, type = some t → t.index < s.catalog.size) :
      Move s ⟨s.catalog, (s.graph.add kind type place).2⟩
  | bind (n d : Node) : Move s (s.bind n d)
  | unbind (n d : Node) : Move s (s.unbind n d)
  | watch (n : Node) (w : Watcher) : Move s ⟨s.catalog, s.graph.watch n w⟩
  | unwatch (n : Node) (w : Watcher) : Move s ⟨s.catalog, s.graph.unwatch n w⟩
  | retype (n : Node) (t : Ty) (ht : t.index < s.catalog.size) :
      Move s ⟨s.catalog, s.graph.retype n t⟩
  | overwrite (n : Node) (t : Ty) (ht : t.index < s.catalog.size) :
      Move s ⟨s.catalog, s.graph.overwriteType n t⟩
  | propagate : Move s (left (propagate s))
  | install (template : Ty) (observed : List (String × Node)) (holder : Node) :
      Move s (left (install template observed holder s))
  | refresh (t : Ty) (limit : Nat) : Move s (left (refresh t limit s))

/-- What such operations lead to from the built-in types and an empty graph. -/
inductive Moved : Store → Prop
  | start (limit : Nat) : Moved ⟨.seeded, .empty limit⟩
  | step {s s' : Store} (h : Moved s) (hmove : s.Move s') : Moved s'

variable {s s' : Store}

theorem Move.change (h : s.Move s') : s.Change s' ∨ s' = s := by
  cases h with
  | request r hr =>
    rcases Catalog.perform_change hr with h | h
    · exact .inl (.catalog h)
    · exact .inr (by rw [h])
  | add kind type place htype => exact .inl (.add kind type place htype)
  | bind n d => exact .inl (.bind n d)
  | unbind n d => exact .inl (.unbind n d)
  | watch n w => exact .inl (.watch n w)
  | unwatch n w => exact .inl (.unwatch n w)
  | retype n t ht => exact .inl (.retype n t ht)
  | overwrite n t ht => exact .inl (.overwrite n t ht)
  | propagate => exact .inl .propagate
  | install template observed holder => exact .inl (.install template observed holder)
  | refresh t limit => exact .inl (.refresh t limit)

theorem Moved.request {c : Catalog} {g : Graph} {r : Request} (h : Moved ⟨c, g⟩)
    (hr : c.Knows r) : Moved ⟨c.perform r, g⟩ :=
  .step h (.request r hr)

theorem Moved.requests {c : Catalog} {g : Graph} {rs : List Request} (h : Moved ⟨c, g⟩)
    (hrs : c.KnowsAll rs) : Moved ⟨c.performAll rs, g⟩ := by
  induction rs generalizing c with
  | nil => exact h
  | cons r rs ih => exact ih (h.request hrs.1) hrs.2

theorem Moved.started (h : s.Moved) : s.Started := by
  induction h with
  | start limit => exact ⟨limit, .refl⟩
  | step _ hmove ih =>
    obtain ⟨limit, hsession⟩ := ih
    rcases hmove.change with h | h
    · exact ⟨limit, hsession.tail h⟩
    · exact ⟨limit, h ▸ hsession⟩

theorem Moved.canonical (h : s.Moved) : s.catalog.Canonical := h.started.orderly.catalog.canonical

theorem Moved.grounded (h : s.Moved) : s.catalog.Grounded := h.canonical.grounded

end Store

end FlowTyping
