import Mathlib.Data.List.Forall2
import FlowTyping.Proofs.Catalog.Indexing
import FlowTyping.Proofs.Inference.Declare
import FlowTyping.Proofs.Inference.Passes

/-
  Types that are opened and opened again

  In the type pass a class or module gets a type that has its name from then on,
  and only a record takes a name over (`places_openTypes`). So what a later pass
  opens, by looking names up, is what the type pass has opened, as long as nothing
  on the way to it has been displaced (`agrees_openTypes`).
-/
namespace FlowTyping

open Steps Catalog

variable {c c' : Catalog} {scope scope' t t' : Ty} {name : String} {within within' : List Ty}
  {later : List Opening} {displaced displaced' : List Ty} {u : Unit}
  {nested : Ty → String → Option Ty}

/-! ## The type pass -/

/-- A catalog in which types have been declared only. -/
structure Catalog.Early (c : Catalog) : Prop where
  sound : c.Sound
  plain : c.Plain
  tabled : c.Tabled

/-- Declarations after which names mean what they have meant, unless it is one of `displaced` that
they have meant. -/
structure Catalog.Places (c : Catalog) (displaced : List Ty) (c' : Catalog) : Prop where
  declares : c.Declares c'
  early : c'.Early
  displaces : c.Displaces displaced c'

namespace Catalog.Places

theorem refl (hc : c.Early) : c.Places displaced c := ⟨.refl hc.sound, hc, .refl c⟩

theorem trans {d : Catalog} (h₁ : c.Places displaced c') (h₂ : c'.Places displaced d) :
    c.Places displaced d :=
  ⟨h₁.declares.trans h₂.declares, h₂.early, h₁.displaces.trans h₂.displaces⟩

theorem mono (h : c.Places displaced c') (hsub : displaced ⊆ displaced') :
    c.Places displaced' c' := ⟨h.declares, h.early, h.displaces.mono hsub⟩

end Catalog.Places

namespace DeclareM

/-- What follows the discipline of declarations, and where it leaves names. -/
theorem places_of_keeps {α : Type} {act : DeclareM α} {post : α → Catalog → Prop} {a : α}
    (hc : c.Early) (hkeeps : declaring.Keeps c act post) (h : act c = .ok a c')
    (htabled : c'.Tabled) (hdisplaces : c.Displaces displaced c') :
    c.Places displaced c' ∧ post a c' := by
  obtain ⟨⟨hsound, hplain⟩, hdeclares, hpost⟩ := (hkeeps ⟨hc.sound, hc.plain⟩).ok a c' h
  exact ⟨⟨hdeclares, ⟨hsound, hplain, htabled⟩, hdisplaces⟩, hpost⟩

theorem ofExcept_ok {α : Type} {x : Except TypingError α} {a : α} :
    ofExcept x c = .ok a c' ↔ x = .ok a ∧ c = c' := by
  cases x with
  | ok b => exact pure_ok.trans (by simp)
  | error e => exact throw_ok.trans (by simp)

theorem openClass_cases {superclass : Option (List String)} {generic : Bool} {place : Place}
    (h : openClass scope name superclass generic place c = .ok t c') :
    (c.nestedType scope name = some t ∧ c' = c) ∨
      (c.nestedType scope name = none ∧
        ∃ parent, c.newObject name (some parent) scope generic = (t, c')) := by
  have hnew : ∀ {parent}, (modifyGet (·.newObject name (some parent) scope generic) : DeclareM Ty) c
      = .ok t c' → c.newObject name (some parent) scope generic = (t, c') := fun h =>
    Prod.ext_iff.mpr (modifyGet_ok.mp h)
  unfold openClass at h
  rw [get_bind_eq] at h
  cases hknown : c.nestedType scope name with
  | some known =>
    rw [hknown] at h
    obtain ⟨rfl, rfl⟩ := pure_ok.mp h
    exact .inl ⟨rfl, rfl⟩
  | none =>
    rw [hknown] at h
    refine .inr ⟨rfl, ?_⟩
    cases superclass with
    | none => exact ⟨.object, hnew h⟩
    | some path =>
      obtain ⟨parent, c₁, hparent, h⟩ := bind_ok.mp h
      obtain ⟨-, rfl⟩ := ofExcept_ok.mp hparent
      exact ⟨parent, hnew h⟩

theorem openModule_cases (h : openModule scope name c = .ok t c') :
    (c.nestedType scope name = some t ∧ c' = c) ∨
      (c.nestedType scope name = none ∧ c.newMixin name (some scope) = (t, c')) := by
  unfold openModule at h
  rw [get_bind_eq] at h
  cases hknown : c.nestedType scope name with
  | some known =>
    rw [hknown] at h
    obtain ⟨rfl, rfl⟩ := pure_ok.mp h
    exact .inl ⟨rfl, rfl⟩
  | none =>
    rw [hknown] at h
    exact .inr ⟨rfl, Prod.ext_iff.mpr (modifyGet_ok.mp h)⟩

/-- What opening a class or module leaves: the type has the name from then on, unless its namespace
has no class table. -/
structure Opens (c : Catalog) (scope : Ty) (name : String) (t : Ty) (c' : Catalog) : Prop where
  places : c.Places [] c'
  definite : c'.Definite t
  named : c'.nestedType scope name = some t ∨ c'.cls? scope = none

/-- What has got a name keeps it, and there is none in a namespace without a class table. -/
theorem named_or_bare (hc : c.Early) (hscope : c.Definite scope) (hdeclares : c.Declares c')
    (hnamed : ∀ k, (c.shape scope).cls? = some k →
      (c'.classTable k).types.get? name = some t) :
    c'.nestedType scope name = some t ∨ c'.cls? scope = none := by
  have hcls := hdeclares.grows.cls?_eq hscope
  cases hk : c.cls? scope with
  | none => exact .inr (hcls.trans hk)
  | some k =>
    refine .inl ?_
    rw [nestedType_of_cls? (hcls.trans hk)]
    exact hnamed k (hc.plain.cls?_eq.symm.trans hk)

theorem opens_openClass (hc : c.Early) (hscope : c.Definite scope)
    {superclass : Option (List String)} {generic : Bool} {place : Place}
    (h : openClass scope name superclass generic place c = .ok t c') :
    Opens c scope name t c' := by
  rcases openClass_cases h with ⟨hknown, rfl⟩ | ⟨hfree, parent, hnew⟩
  · exact ⟨.refl hc, hc.sound.nestedType hknown, .inl hknown⟩
  · obtain ⟨rfl, rfl⟩ := Prod.ext_iff.mp hnew
    have hdisplaces := Displaces.newObject hc.tabled hscope name (some parent) generic
    rw [hfree] at hdisplaces
    obtain ⟨hplaces, ht⟩ := places_of_keeps hc (keeps_openClass hscope) h
      (hc.tabled.newObject name (some parent) scope generic) hdisplaces
    refine ⟨hplaces, ht, named_or_bare hc hscope hplaces.declares fun k hk => ?_⟩
    exact (congrArg (·.get? name) (types_defineMethod _ _ k)).trans
      (types_newClassLike hc.tabled hk name (some parent) _)

theorem opens_openModule (hc : c.Early) (hscope : c.Definite scope)
    (h : openModule scope name c = .ok t c') : Opens c scope name t c' := by
  rcases openModule_cases h with ⟨hknown, rfl⟩ | ⟨hfree, hnew⟩
  · exact ⟨.refl hc, hc.sound.nestedType hknown, .inl hknown⟩
  · obtain ⟨rfl, rfl⟩ := Prod.ext_iff.mp hnew
    have hdisplaces := Displaces.newMixin hc.tabled hscope name
    rw [hfree] at hdisplaces
    obtain ⟨hplaces, ht⟩ := places_of_keeps hc (keeps_openModule hscope) h
      (hc.tabled.newMixin name (some scope)) hdisplaces
    exact ⟨hplaces, ht, named_or_bare hc hscope hplaces.declares fun k hk =>
      types_newClassLike hc.tabled hk name none _⟩

/-- A record takes over the name that it is declared under. -/
theorem places_enterRecord (hc : c.Early) (hscope : c.Definite scope)
    {fields : List (String × TypeName)} {place : Place}
    (h : enterRecord scope name fields place c = .ok u c') :
    c.Places (c.nestedType scope name).toList c' := by
  obtain ⟨types, c₁, htypes, hmodify⟩ := bind_ok.mp (get_bind_ok.mp h)
  obtain ⟨-, rfl⟩ := ofExcept_ok.mp htypes
  obtain rfl := modify_ok.mp hmodify
  exact (places_of_keeps hc (keeps_enterRecord hscope) h (hc.tabled.newRecord ..)
    (.newRecord hc.tabled hscope name _)).1

theorem places_enterInclusion (hc : c.Early) (hscope : c.Definite scope) {path : List String}
    {place : Place} (h : enterInclusion scope path place c = .ok u c') : c.Places [] c' := by
  obtain ⟨included, c₁, hincluded, hset⟩ := bind_ok.mp (get_bind_ok.mp h)
  obtain ⟨-, rfl⟩ := ofExcept_ok.mp hincluded
  replace hset := get_bind_ok.mp hset
  cases hmixin : c.includeMixin scope included with
  | error e =>
    rw [hmixin] at hset
    exact (throw_ok.mp hset).elim
  | ok d =>
    rw [hmixin] at hset
    cases hset
    exact (places_of_keeps hc (keeps_enterInclusion hscope) h (hc.tabled.includeMixin hmixin)
      (.includeMixin hmixin)).1

theorem places_enterConstant (hc : c.Early) (hscope : c.Definite scope) {value : Expr}
    (h : enterConstant scope name value c = .ok u c') : c.Places [] c' := by
  have hentered := modify_ok.mp h
  cases hname : c.nestedType scope name with
  | some known =>
    rw [hname] at hentered
    subst hentered
    exact .refl hc
  | none =>
    rw [hname] at hentered
    subst hentered
    have hdisplaces := Displaces.newConstant c scope name value
    rw [hname] at hdisplaces
    exact (places_of_keeps hc (keeps_enterConstant hscope) h (hc.tabled.newConstant ..)
      hdisplaces).1

theorem places_enterConstants (hc : c.Early) (hscope : c.Definite scope) {mark : Mark}
    {targets : List Target} {values : List Expr}
    (h : enterConstants scope mark targets values c = .ok u c') : c.Places [] c' := by
  induction targets generalizing c values with
  | nil =>
    obtain ⟨-, rfl⟩ := pure_ok.mp h
    exact .refl hc
  | cons target targets ih =>
    cases target with
    | constant name =>
      obtain ⟨_, c₁, hone, hrest⟩ := bind_ok.mp h
      have hplaces := places_enterConstant hc hscope hone
      exact hplaces.trans (ih hplaces.early (hplaces.declares.definite hscope) hrest)
    | localVar _ => exact ih hc hscope h
    | slot _ => exact ih hc hscope h

/-- A statement that opens nothing and is no record. -/
theorem places_rest {act : DeclareM Unit} {result : List Opening × List Ty}
    (hact : ∀ {u c'}, act c = .ok u c' → c.Places [] c')
    (h : (do act; pure ([], []) : DeclareM (List Opening × List Ty)) c = .ok result c') :
    c.Places result.2 c' := by
  obtain ⟨_, c₁, hrest, h⟩ := bind_ok.mp h
  obtain ⟨rfl, rfl⟩ := pure_ok.mp h
  exact hact hrest

/-- A class or module is opened, and then its body. -/
theorem opened_ok {opening : DeclareM Ty} {mark : Mark} {body : Expr}
    {result : List Opening × List Ty} (h : (do
      let t ← opening
      let inner ← openTypes (t :: within) t body
      pure (⟨mark, t, within⟩ :: inner.1, inner.2) : DeclareM (List Opening × List Ty)) c =
      .ok result c') :
    ∃ t c₁ inner, opening c = .ok t c₁ ∧ openTypes (t :: within) t body c₁ = .ok inner c' ∧
      result = (⟨mark, t, within⟩ :: inner.1, inner.2) := by
  obtain ⟨t, c₁, hopen, h⟩ := bind_ok.mp h
  obtain ⟨inner, c₂, hbody, h⟩ := bind_ok.mp h
  obtain ⟨rfl, rfl⟩ := pure_ok.mp h
  exact ⟨t, c₁, inner, hopen, hbody, rfl⟩

theorem Opens.body (h : Opens c scope name t c') {d : Catalog}
    (hbody : c'.Places displaced d) : c.Places displaced d :=
  (h.places.mono (List.nil_subset _)).trans hbody

mutual

/-- In the type pass only records displace types. -/
theorem places_openTypes {c c' : Catalog} {scope : Ty} {within : List Ty}
    {result : List Opening × List Ty} (hc : c.Early) (hscope : c.Definite scope) (e : Expr)
    (h : openTypes within scope e c = .ok result c') : c.Places result.2 c' := by
  cases e with
  | sequence mark items => exact places_openTypesAll hc hscope items h
  | classDef mark name superclass generic body =>
    obtain ⟨t, c₁, inner, hopen, hbody, rfl⟩ := opened_ok h
    have hopens := opens_openClass hc hscope hopen
    have hinner := places_openTypes hopens.places.early hopens.definite body hbody
    exact hopens.body hinner
  | moduleDef mark name body =>
    obtain ⟨t, c₁, inner, hopen, hbody, rfl⟩ := opened_ok h
    have hopens := opens_openModule hc hscope hopen
    have hinner := places_openTypes hopens.places.early hopens.definite body hbody
    exact hopens.body hinner
  | recordDef mark name fields =>
    obtain ⟨_, c₁, hrecord, h⟩ := bind_ok.mp (get_bind_ok.mp h)
    obtain ⟨rfl, rfl⟩ := pure_ok.mp h
    exact places_enterRecord hc hscope hrecord
  | inclusion mark path => exact places_rest (places_enterInclusion hc hscope) h
  | assign mark target value =>
    refine places_rest (fun hact => ?_) h
    cases target with
    | constant name => exact places_enterConstant hc hscope hact
    | localVar _ => obtain ⟨-, rfl⟩ := pure_ok.mp hact; exact .refl hc
    | slot _ => obtain ⟨-, rfl⟩ := pure_ok.mp hact; exact .refl hc
  | assignMany mark targets values => exact places_rest (places_enterConstants hc hscope) h
  | _ => exact places_rest (fun hact => by obtain ⟨-, rfl⟩ := pure_ok.mp hact; exact .refl hc) h

theorem places_openTypesAll {c c' : Catalog} {scope : Ty} {within : List Ty}
    {result : List Opening × List Ty} (hc : c.Early) (hscope : c.Definite scope)
    (items : List Expr) (h : openTypesAll within scope items c = .ok result c') :
    c.Places result.2 c' := by
  cases items with
  | nil =>
    obtain ⟨rfl, rfl⟩ := pure_ok.mp h
    exact .refl hc
  | cons item rest =>
    obtain ⟨first, c₁, hfirst, h⟩ := bind_ok.mp h
    obtain ⟨later, c₂, hlater, h⟩ := bind_ok.mp h
    obtain ⟨rfl, rfl⟩ := pure_ok.mp h
    have hitem := places_openTypes hc hscope item hfirst
    have hrest := places_openTypesAll hitem.early (hitem.declares.definite hscope) rest hlater
    exact (hitem.mono (List.subset_append_left _ _)).trans
      (hrest.mono (List.subset_append_right _ _))

end

/-! ## Types that are opened again -/

/-- What the names of a catalog mean in the end, according to `nested`. -/
structure Ends (c : Catalog) (displaced : List Ty) (nested : Ty → String → Option Ty) : Prop where
  kept : ∀ scope name t, c.Definite scope → c.nestedType scope name = some t →
    nested scope name = some t ∨ t ∈ displaced
  bare : ∀ scope name, c.Definite scope → c.cls? scope = none → nested scope name = none

/-- What is left of names in the end is what they have meant before. -/
theorem Ends.of_places (hplaces : c.Places displaced' c') (hsub : displaced' ⊆ displaced)
    (h : Ends c' displaced nested) : Ends c displaced nested where
  kept scope name t hscope ht :=
    (hplaces.displaces.nestedType hplaces.declares.grows hscope ht).elim
      (h.kept scope name t (hplaces.declares.definite hscope)) fun hin => .inr (hsub hin)
  bare scope name hscope hnone := h.bare scope name (hplaces.declares.definite hscope)
    ((hplaces.declares.grows.cls?_eq hscope).trans hnone)

/-- A class or module that is opened in the same type again denotes the same type again, unless that
has been displaced. -/
theorem Ends.reopened (h : Ends c displaced nested) (hscope : c.Definite scope)
    (hopened : c.nestedType scope name = some t ∨ c.cls? scope = none)
    (hsame : (∀ u ∈ within, u ∉ displaced) → scope' = scope ∧ within' = within)
    (hagain : nested scope' name = some t') (hkept : ∀ u ∈ t :: within, u ∉ displaced) :
    t' = t ∧ within' = within := by
  obtain ⟨rfl, rfl⟩ := hsame fun u hu => hkept u (List.mem_cons_of_mem t hu)
  refine ⟨?_, rfl⟩
  rcases hopened with ht | hnone
  · rcases h.kept scope' name t hscope ht with hend | hin
    · exact Option.some.inj (hagain.symm.trans hend)
    · exact (hkept t List.mem_cons_self hin).elim
  · cases (h.bare scope' name hscope hnone).symm.trans hagain

theorem openings_of_opened {mark : Mark} {body : Expr} (h : (do
      let t ← nested scope name
      let inner ← openings nested (t :: within) t body
      pure (⟨mark, t, within⟩ :: inner)) = some later) :
    ∃ t inner, nested scope name = some t ∧ openings nested (t :: within) t body = some inner ∧
      later = ⟨mark, t, within⟩ :: inner := by
  obtain ⟨t, ht, h⟩ := Option.bind_eq_some_iff.mp h
  obtain ⟨inner, hinner, h⟩ := Option.bind_eq_some_iff.mp h
  exact ⟨t, inner, ht, hinner, (Option.some.inj h).symm⟩

/-- A class or module that is opened again agrees if what its body opens does. -/
theorem agrees_opened {mark : Mark} {body : Expr} {inner : List Opening}
    (hscope : c.Definite scope) (hopens : Opens c scope name t c')
    (hends : Ends c' displaced nested)
    (hsame : (∀ u ∈ within, u ∉ displaced) → scope' = scope ∧ within' = within)
    (hbody : ∀ {t' again}, ((∀ u ∈ t :: within, u ∉ displaced) →
        t' = t ∧ t' :: within' = t :: within) →
      openings nested (t' :: within') t' body = some again →
      List.Forall₂ (Opening.Agrees displaced) inner again)
    (hlater : (do
      let t ← nested scope' name
      let inner ← openings nested (t :: within') t body
      pure (⟨mark, t, within'⟩ :: inner)) = some later) :
    List.Forall₂ (Opening.Agrees displaced) (⟨mark, t, within⟩ :: inner) later := by
  obtain ⟨t', again, hagain, hbodyAgain, rfl⟩ := openings_of_opened hlater
  have hreopened := hends.reopened (hopens.places.declares.definite hscope) hopens.named hsame hagain
  refine .cons ⟨rfl, fun hkept => ?_⟩ (hbody (fun hkept => ?_) hbodyAgain)
  · obtain ⟨rfl, rfl⟩ := hreopened hkept
    rfl
  · obtain ⟨rfl, rfl⟩ := hreopened hkept
    exact ⟨rfl, rfl⟩

/-- A statement that opens nothing. -/
theorem agrees_nil {act : DeclareM Unit} {types : List Ty} {result : List Opening × List Ty}
    (h : (do act; pure ([], types) : DeclareM (List Opening × List Ty)) c = .ok result c')
    (hlater : some [] = some later) :
    List.Forall₂ (Opening.Agrees displaced) result.1 later := by
  obtain ⟨_, c₁, -, h⟩ := bind_ok.mp h
  obtain ⟨rfl, rfl⟩ := pure_ok.mp h
  cases hlater
  exact .nil

mutual

theorem agrees_openTypes {c c' : Catalog} {scope scope' : Ty} {within within' : List Ty}
    {displaced : List Ty} {nested : Ty → String → Option Ty}
    {result : List Opening × List Ty} {later : List Opening} (hc : c.Early)
    (hscope : c.Definite scope) (e : Expr) (h : openTypes within scope e c = .ok result c')
    (hsub : result.2 ⊆ displaced) (hends : Ends c' displaced nested)
    (hsame : (∀ u ∈ within, u ∉ displaced) → scope' = scope ∧ within' = within)
    (hlater : openings nested within' scope' e = some later) :
    List.Forall₂ (Opening.Agrees displaced) result.1 later := by
  cases e with
  | sequence mark items => exact agrees_openTypesAll hc hscope items h hsub hends hsame hlater
  | classDef mark name superclass generic body =>
    obtain ⟨t, c₁, inner, hopen, hbody, rfl⟩ := opened_ok h
    have hopens := opens_openClass hc hscope hopen
    have hinner := places_openTypes hopens.places.early hopens.definite body hbody
    refine agrees_opened hscope hopens (hends.of_places hinner hsub) hsame
      (fun hsame hagain => ?_) hlater
    exact agrees_openTypes hopens.places.early hopens.definite body hbody hsub hends hsame hagain
  | moduleDef mark name body =>
    obtain ⟨t, c₁, inner, hopen, hbody, rfl⟩ := opened_ok h
    have hopens := opens_openModule hc hscope hopen
    have hinner := places_openTypes hopens.places.early hopens.definite body hbody
    refine agrees_opened hscope hopens (hends.of_places hinner hsub) hsame
      (fun hsame hagain => ?_) hlater
    exact agrees_openTypes hopens.places.early hopens.definite body hbody hsub hends hsame hagain
  | recordDef mark name fields => exact agrees_nil (get_bind_ok.mp h) hlater
  | _ => exact agrees_nil h hlater

theorem agrees_openTypesAll {c c' : Catalog} {scope scope' : Ty} {within within' : List Ty}
    {displaced : List Ty} {nested : Ty → String → Option Ty}
    {result : List Opening × List Ty} {later : List Opening} (hc : c.Early)
    (hscope : c.Definite scope) (items : List Expr)
    (h : openTypesAll within scope items c = .ok result c')
    (hsub : result.2 ⊆ displaced) (hends : Ends c' displaced nested)
    (hsame : (∀ u ∈ within, u ∉ displaced) → scope' = scope ∧ within' = within)
    (hlater : openingsAll nested within' scope' items = some later) :
    List.Forall₂ (Opening.Agrees displaced) result.1 later := by
  cases items with
  | nil =>
    obtain ⟨rfl, rfl⟩ := pure_ok.mp h
    cases hlater
    exact .nil
  | cons item rest =>
    obtain ⟨first, c₁, hfirst, h⟩ := bind_ok.mp h
    obtain ⟨others, c₂, hothers, h⟩ := bind_ok.mp h
    obtain ⟨rfl, rfl⟩ := pure_ok.mp h
    obtain ⟨again, hagain, hlater⟩ := Option.bind_eq_some_iff.mp hlater
    obtain ⟨againOthers, hagainOthers, hlater⟩ := Option.bind_eq_some_iff.mp hlater
    cases hlater
    obtain ⟨hsubFirst, hsubOthers⟩ := List.append_subset.mp hsub
    have hitem := places_openTypes hc hscope item hfirst
    have hrest := places_openTypesAll hitem.early (hitem.declares.definite hscope) rest hothers
    refine List.rel_append
      (agrees_openTypes hc hscope item hfirst hsubFirst (hends.of_places hrest hsubOthers) hsame
        hagain) ?_
    exact agrees_openTypesAll hitem.early (hitem.declares.definite hscope) rest hothers hsubOthers
      hends hsame hagainOthers

end

end DeclareM

end FlowTyping
