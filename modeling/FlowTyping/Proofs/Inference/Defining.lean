import FlowTyping.Proofs.Inference.Reopening

/-
  Methods that are declared where they stand

  The method pass looks up the classes and modules of the text, and methods are
  no types, so it opens what the names mean when it begins. It declares the
  methods in the order of the text, each for the type that it stands in or for
  the metaclass of that (`defines_openMethods`).
-/
namespace FlowTyping

open Steps Catalog

namespace DeclareM

variable {c c' : Catalog} {scope t : Ty} {name : String} {within : List Ty}

/-- What is left after methods are declared on top of `ms`. -/
structure Defines (c : Catalog) (ms : List Method) (definitions : List Definition) (c' : Catalog) :
    Prop where
  eq : c' = c.defineAll (ms ++ definitions.map (·.method))
  ids : definitions.map (·.id.index) =
    List.range' (c.methods.size + ms.length) definitions.length
  owned : ∀ d ∈ definitions, c.Definite d.scope ∧
    methodOwner c d.scope d.onMetaclass = .ok d.method.owner

namespace Defines

variable {ms : List Method} {definitions others : List Definition}

theorem nil (c : Catalog) (ms : List Method) : Defines c ms [] (c.defineAll ms) :=
  ⟨by rw [List.map_nil, List.append_nil], rfl, fun d hd => by cases hd⟩

theorem append {d : Catalog} (h₁ : Defines c ms definitions c')
    (h₂ : Defines c (ms ++ definitions.map (·.method)) others d) :
    Defines c ms (definitions ++ others) d where
  eq := by rw [h₂.eq, List.map_append, List.append_assoc]
  ids := by
    rw [List.map_append, List.length_append, h₁.ids, h₂.ids, List.length_append, List.length_map,
      ← Nat.add_assoc, List.range'_append_1]
  owned e he := (List.mem_append.mp he).elim (h₁.owned e) (h₂.owned e)

end Defines

theorem declared_ok (h : c.declared scope name = .ok t) : c.nestedType scope name = some t := by
  unfold declared at h
  split at h
  · next hname => rw [hname, Except.ok.inj h]
  · cases h

/-- The owner of a method depends on which metaclass the type has that it stands in. -/
theorem methodOwner_congr (h : c'.metaclass? scope = c.metaclass? scope) {onMetaclass : Bool}
    (howner : methodOwner c scope onMetaclass = .ok t) :
    methodOwner c' scope onMetaclass = .ok t := by
  unfold methodOwner at howner ⊢
  rw [h]
  split
  · next hmeta =>
    rw [if_pos hmeta] at howner
    split at howner
    · exact howner
    · cases howner
  · next hmeta => rwa [if_neg hmeta] at howner

theorem defines_define (hscope : c.Definite scope) {ms : List Method}
    {onMetaclass : Bool} {params : List (WrittenParameter Expr)} {body : Expr} {place : Place}
    {d : Definition}
    (h : define scope name onMetaclass params body place (c.defineAll ms) = .ok d c') :
    Defines c ms [d] c' := by
  obtain ⟨owner, c₁, howner, h⟩ := bind_ok.mp (get_bind_ok.mp h)
  obtain ⟨hbelongs, rfl⟩ := ofExcept_ok.mp howner
  obtain ⟨parameters, c₂, hparameters, h⟩ := bind_ok.mp h
  obtain ⟨-, rfl⟩ := ofExcept_ok.mp hparameters
  obtain ⟨id, c₃, hdefine, h⟩ := bind_ok.mp h
  obtain ⟨rfl, rfl⟩ := modifyGet_ok.mp hdefine
  obtain ⟨rfl, rfl⟩ := pure_ok.mp h
  refine ⟨?_, ?_, fun e he => ?_⟩
  · rw [defineAll_append]
    rfl
  · rw [List.map_singleton, handle_defineMethod, methods_defineAll]
    simp
  · rw [List.mem_singleton.mp he]
    have hmetaclass := metaclass?_of_shapes_eq (shapes_defineAll c ms) scope
    exact ⟨hscope, methodOwner_congr hmetaclass.symm hbelongs⟩

/-- What the method pass does at a class or module, if it does so in the body. -/
theorem defines_opened (hc : c.Early) {ms : List Method} {mark : Mark} {body : Expr}
    {result : List Opening × List Definition}
    (hbody : ∀ t inner d, c.Definite t →
      openMethods (t :: within) t body (c.defineAll ms) = .ok inner d →
      openings c.nestedType (t :: within) t body = some inner.1 ∧ Defines c ms inner.2 d)
    (h : (do
      let t ← ofExcept ((← get).declared scope name)
      let inner ← openMethods (t :: within) t body
      pure (⟨mark, t, within⟩ :: inner.1, inner.2) : DeclareM (List Opening × List Definition))
      (c.defineAll ms) = .ok result c') :
    (do
      let t ← c.nestedType scope name
      let inner ← openings c.nestedType (t :: within) t body
      pure (⟨mark, t, within⟩ :: inner) : Option (List Opening)) = some result.1 ∧
      Defines c ms result.2 c' := by
  obtain ⟨t, c₁, ht, h⟩ := bind_ok.mp (get_bind_ok.mp h)
  obtain ⟨inner, c₂, hinner, h⟩ := bind_ok.mp h
  obtain ⟨rfl, rfl⟩ := pure_ok.mp h
  obtain ⟨hdeclared, rfl⟩ := ofExcept_ok.mp ht
  have hname : c.nestedType scope name = some t :=
    (nestedType_defineAll c ms scope name).symm.trans (declared_ok hdeclared)
  obtain ⟨hopened, hdefines⟩ := hbody t inner c₂ (hc.sound.nestedType hname) hinner
  refine ⟨?_, hdefines⟩
  rw [hname, Option.bind_eq_bind, Option.bind_some, hopened]
  rfl

mutual

/-- The method pass opens what the names mean, and declares methods where they stand. -/
theorem defines_openMethods {c c' : Catalog} {scope : Ty} {within : List Ty} {ms : List Method}
    {result : List Opening × List Definition} (hc : c.Early) (hscope : c.Definite scope) (e : Expr)
    (h : openMethods within scope e (c.defineAll ms) = .ok result c') :
    openings c.nestedType within scope e = some result.1 ∧ Defines c ms result.2 c' := by
  cases e with
  | sequence mark items => exact defines_openMethodsAll hc hscope items h
  | classDef mark name superclass generic body =>
    exact defines_opened hc (fun t inner d ht => defines_openMethods hc ht body) h
  | moduleDef mark name body =>
    exact defines_opened hc (fun t inner d ht => defines_openMethods hc ht body) h
  | methodDef mark name onMetaclass params body =>
    obtain ⟨d, c₁, hdefine, h⟩ := bind_ok.mp h
    obtain ⟨rfl, rfl⟩ := pure_ok.mp h
    exact ⟨rfl, defines_define hscope hdefine⟩
  | _ =>
    obtain ⟨rfl, rfl⟩ := pure_ok.mp h
    exact ⟨rfl, .nil c ms⟩

theorem defines_openMethodsAll {c c' : Catalog} {scope : Ty} {within : List Ty} {ms : List Method}
    {result : List Opening × List Definition} (hc : c.Early) (hscope : c.Definite scope)
    (items : List Expr)
    (h : openMethodsAll within scope items (c.defineAll ms) = .ok result c') :
    openingsAll c.nestedType within scope items = some result.1 ∧ Defines c ms result.2 c' := by
  cases items with
  | nil =>
    obtain ⟨rfl, rfl⟩ := pure_ok.mp h
    exact ⟨rfl, .nil c ms⟩
  | cons item rest =>
    obtain ⟨first, c₁, hfirst, h⟩ := bind_ok.mp h
    obtain ⟨later, c₂, hlater, h⟩ := bind_ok.mp h
    obtain ⟨rfl, rfl⟩ := pure_ok.mp h
    obtain ⟨hopened, hdefines⟩ := defines_openMethods hc hscope item hfirst
    rw [hdefines.eq] at hlater
    obtain ⟨hothers, hmore⟩ := defines_openMethodsAll hc hscope rest hlater
    refine ⟨?_, hdefines.append hmore⟩
    unfold openingsAll
    rw [hopened, hothers]
    rfl

end

end DeclareM

end FlowTyping
