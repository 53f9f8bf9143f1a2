import FlowTyping.Proofs.Catalog.Renumbering
import FlowTyping.Proofs.Inference.Defining
import FlowTyping.Proofs.Inference.Mirroring
import FlowTyping.Proofs.Inference.Nesting

/-
  Methods declared earlier

  A method may stand earlier in its list of statements (`Hoisted`), as long as
  it passes no other method of its name in the same class or module. Then the
  type pass does the same (`typePass_hoisted`), the method pass declares the same
  methods in another order (`methodsIn_hoisted`), and the catalogs that result
  are the same but for the handles of methods (`declared_hoisted`).
-/
namespace FlowTyping

open Steps Catalog

namespace Expr

mutual

/-- Whether an expression declares a method of this name for the class or module it stands in. -/
def defines (name : String) : Expr → Bool
  | sequence _ items => anyDefines name items
  | methodDef _ other _ _ _ => other == name
  | _ => false

def anyDefines (name : String) : List Expr → Bool
  | [] => false
  | item :: rest => item.defines name || anyDefines name rest

end

/-- The second program is the first with one method earlier in a list of statements of the program
or of a class or module in it. The method passes no other one of its name and is not the last
statement. Nor does it pass an expression with its number: numbers are the identities of
expressions, and of two with one number the later is what is recorded. -/
inductive Hoisted : Expr → Expr → Prop
  | moved (mark : Mark) (before passed after : List Expr) (own : Mark) (name : String)
      (onMetaclass : Bool) (params : List (WrittenParameter Expr)) (body : Expr)
      (hname : anyDefines name passed = false) (hnumber : own.id ∉ allNumbers passed)
      (hlast : after ≠ []) :
      Hoisted
        (.sequence mark
          (before ++ (passed ++ .methodDef own name onMetaclass params body :: after)))
        (.sequence mark
          (before ++ (.methodDef own name onMetaclass params body :: passed ++ after)))
  | item (mark : Mark) (before after : List Expr) {e e' : Expr} (h : Hoisted e e') :
      Hoisted (.sequence mark (before ++ e :: after)) (.sequence mark (before ++ e' :: after))
  | classBody (mark : Mark) (name : String) (superclass : Option (List String)) (generic : Bool)
      {body body' : Expr} (h : Hoisted body body') :
      Hoisted (.classDef mark name superclass generic body)
        (.classDef mark name superclass generic body')
  | moduleBody (mark : Mark) (name : String) {body body' : Expr} (h : Hoisted body body') :
      Hoisted (.moduleDef mark name body) (.moduleDef mark name body')

end Expr

namespace DeclareM

variable {c c' : Catalog} {scope t : Ty} {p q : Expr} {u : Unit}

/-! ## The type pass -/

theorem typePassAll_append (scope : Ty) (xs ys : List Expr) (c : Catalog) :
    typePassAll scope (xs ++ ys) c =
      (do typePassAll scope xs; typePassAll scope ys : DeclareM Unit) c := by
  induction xs generalizing c with
  | nil => rfl
  | cons x xs ih =>
    show (typePass scope x >>= fun _ => typePassAll scope (xs ++ ys)) c =
      ((typePass scope x >>= fun _ => typePassAll scope xs) >>= fun _ => typePassAll scope ys) c
    rw [bind_eq, bind_eq, bind_eq]
    cases typePass scope x c with
    | ok _ c₁ => exact ih c₁
    | error e c₁ => rfl

/-- Methods are left alone. -/
theorem typePass_hoisted (h : p.Hoisted q) (scope : Ty) : typePass scope p = typePass scope q := by
  induction h generalizing scope with
  | moved mark before passed after own name onMetaclass params body =>
    funext c
    show typePassAll scope _ c = typePassAll scope _ c
    rw [typePassAll_append, typePassAll_append, bind_eq, bind_eq]
    cases typePassAll scope before c with
    | ok _ c₁ =>
      show typePassAll scope (passed ++ _) c₁ = typePassAll scope (passed ++ after) c₁
      rw [typePassAll_append, typePassAll_append]
      rfl
    | error e c₁ => rfl
  | item mark before after _ ih =>
    funext c
    show typePassAll scope _ c = typePassAll scope _ c
    rw [typePassAll_append, typePassAll_append]
    show (typePassAll scope before >>= fun _ => typePass scope _ >>= fun _ =>
      typePassAll scope after) c = _
    rw [ih]
    rfl
  | classBody mark name superclass generic _ ih =>
    show (openClass scope name superclass generic mark.place >>= fun t => typePass t _) = _
    rw [funext ih]
    rfl
  | moduleBody mark name _ ih =>
    show (openModule scope name >>= fun t => typePass t _) = _
    rw [funext ih]
    rfl

/-! ## The method pass -/

/-- The method that a definition in `scope` declares. -/
def methodOf (c : Catalog) (scope : Ty) (name : String) (onMetaclass : Bool)
    (params : List (WrittenParameter Expr)) (body : Expr) (place : Place) :
    Except TypingError Method := do
  let owner ← methodOwner c scope onMetaclass
  let parameters ← parameters c scope place params
  .ok ⟨name, owner, parameters, body.yields, .code body, place⟩

mutual

/-- The methods that an expression declares in `scope`, with those of the classes and modules in
it. -/
def methodsIn (c : Catalog) (scope : Ty) : Expr → Except TypingError (List Method)
  | .sequence _ items => methodsInAll c scope items
  | .classDef _ name _ _ body => do methodsIn c (← c.declared scope name) body
  | .moduleDef _ name body => do methodsIn c (← c.declared scope name) body
  | .methodDef mark name onMetaclass params body =>
    (methodOf c scope name onMetaclass params body mark.place).map ([·])
  | _ => .ok []

def methodsInAll (c : Catalog) (scope : Ty) : List Expr → Except TypingError (List Method)
  | [] => .ok []
  | item :: rest => do
    let first ← methodsIn c scope item
    let others ← methodsInAll c scope rest
    .ok (first ++ others)

end

theorem except_bind_ok {α β : Type} {x : Except TypingError α}
    {f : α → Except TypingError β} {b : β} :
    (x >>= f) = .ok b ↔ ∃ a, x = .ok a ∧ f a = .ok b := by
  cases x with
  | ok a =>
    refine ⟨fun h => ⟨a, rfl, h⟩, ?_⟩
    rintro ⟨_, h, hf⟩
    cases h
    exact hf
  | error e =>
    constructor
    · intro h
      cases h
    · rintro ⟨_, h, -⟩
      cases h

theorem methodOf_congr (h : c'.outline = c.outline) (scope : Ty) (name : String)
    (onMetaclass : Bool) (params : List (WrittenParameter Expr)) (body : Expr) (place : Place) :
    methodOf c' scope name onMetaclass params body place =
      methodOf c scope name onMetaclass params body place := by
  have hlookUp : ∀ path, c'.lookUp path scope .constant place =
      c.lookUp path scope .constant place := fun path => by
    rw [← lookUp_outline c', h, lookUp_outline]
  have hrestriction : restriction c' scope place = restriction c scope place := by
    funext written
    rcases written with _ | ⟨path⟩ | _
    · rfl
    · exact congrArg (Except.map _) (hlookUp path)
    · rfl
  have howner : methodOwner c' scope onMetaclass = methodOwner c scope onMetaclass := by
    unfold methodOwner
    rw [← metaclass?_outline c', ← display_outline c', h, metaclass?_outline, display_outline]
  unfold methodOf parameters
  rw [howner, hrestriction]

mutual

theorem methodsIn_congr {c c' : Catalog} (h : c'.outline = c.outline) (scope : Ty) (e : Expr) :
    methodsIn c' scope e = methodsIn c scope e := by
  have hdeclared : ∀ name, c'.declared scope name = c.declared scope name := fun name => by
    rw [← declared_outline c', h, declared_outline]
  cases e with
  | sequence mark items => exact methodsInAll_congr h scope items
  | classDef mark name superclass generic body =>
    unfold methodsIn
    rw [hdeclared]
    exact congrArg _ (funext fun t => methodsIn_congr h t body)
  | moduleDef mark name body =>
    unfold methodsIn
    rw [hdeclared]
    exact congrArg _ (funext fun t => methodsIn_congr h t body)
  | methodDef mark name onMetaclass params body =>
    unfold methodsIn
    rw [methodOf_congr h]
  | _ => rfl

theorem methodsInAll_congr {c c' : Catalog} (h : c'.outline = c.outline) (scope : Ty)
    (items : List Expr) : methodsInAll c' scope items = methodsInAll c scope items := by
  cases items with
  | nil => rfl
  | cons item rest =>
    unfold methodsInAll
    rw [methodsIn_congr h scope item, methodsInAll_congr h scope rest]

end

theorem enterMethodOf_ok {name : String} {onMetaclass : Bool}
    {params : List (WrittenParameter Expr)} {body : Expr} {place : Place} :
    enterMethodOf scope name onMetaclass params body place c = .ok u c' ↔
      ∃ m, methodOf c scope name onMetaclass params body place = .ok m ∧
        c' = (c.defineMethod m).2 := by
  unfold enterMethodOf methodOf
  rw [get_bind_ok, bind_ok]
  constructor
  · rintro ⟨owner, c₁, hbelongs, h⟩
    obtain ⟨howner, rfl⟩ := ofExcept_ok.mp hbelongs
    obtain ⟨ps, c₂, htaken, h⟩ := bind_ok.mp h
    obtain ⟨hps, rfl⟩ := ofExcept_ok.mp htaken
    refine ⟨⟨name, owner, ps, body.yields, .code body, place⟩, ?_, (modify_ok.mp h).symm⟩
    rw [howner, hps]
    rfl
  · rintro ⟨m, hm, rfl⟩
    obtain ⟨owner, howner, hm⟩ := except_bind_ok.mp hm
    obtain ⟨ps, hps, hm⟩ := except_bind_ok.mp hm
    obtain rfl := Except.ok.inj hm
    refine ⟨owner, c, ofExcept_ok.mpr ⟨howner, rfl⟩, bind_ok.mpr ⟨ps, c, ?_, modify_ok.mpr rfl⟩⟩
    exact ofExcept_ok.mpr ⟨hps, rfl⟩

/-- What the method pass declares in a class or module. -/
theorem inDeclared_ok {name : String} {body : Expr}
    (h : ∀ t, methodPass t body c = .ok u c' ↔ ∃ ms, methodsIn c t body = .ok ms ∧
      c' = c.defineAll ms) :
    (do methodPass (← ofExcept ((← get).declared scope name)) body : DeclareM Unit) c = .ok u c' ↔
      ∃ ms, (do methodsIn c (← c.declared scope name) body) = .ok ms ∧ c' = c.defineAll ms := by
  rw [get_bind_ok, bind_ok]
  constructor
  · rintro ⟨t, c₁, hopen, hbody⟩
    obtain ⟨ht, rfl⟩ := ofExcept_ok.mp hopen
    obtain ⟨ms, hms, rfl⟩ := (h t).mp hbody
    exact ⟨ms, except_bind_ok.mpr ⟨t, ht, hms⟩, rfl⟩
  · rintro ⟨ms, hms, heq⟩
    obtain ⟨t, ht, hms⟩ := except_bind_ok.mp hms
    exact ⟨t, c, ofExcept_ok.mpr ⟨ht, rfl⟩, (h t).mpr ⟨ms, hms, heq⟩⟩

/-- Where there is no method, none is declared. -/
theorem nothing_ok : (pure () : DeclareM Unit) c = .ok u c' ↔
    ∃ ms, (.ok [] : Except TypingError (List Method)) = .ok ms ∧ c' = c.defineAll ms := by
  rw [pure_ok]
  constructor
  · rintro ⟨-, rfl⟩
    exact ⟨[], rfl, rfl⟩
  · rintro ⟨ms, hms, rfl⟩
    cases hms
    exact ⟨rfl, rfl⟩

mutual

/-- The method pass declares the methods of an expression one after the other. -/
theorem methodPass_ok {c c' : Catalog} {scope : Ty} {u : Unit} (e : Expr) :
    methodPass scope e c = .ok u c' ↔ ∃ ms, methodsIn c scope e = .ok ms ∧ c' = c.defineAll ms := by
  cases e with
  | sequence mark items => exact methodPassAll_ok items
  | classDef mark name superclass generic body => exact inDeclared_ok fun t => methodPass_ok body
  | moduleDef mark name body => exact inDeclared_ok fun t => methodPass_ok body
  | methodDef mark name onMetaclass params body =>
    refine enterMethodOf_ok.trans ?_
    unfold methodsIn
    constructor
    · rintro ⟨m, hm, rfl⟩
      exact ⟨[m], by rw [hm]; rfl, rfl⟩
    · rintro ⟨ms, hms, rfl⟩
      obtain ⟨m, hm, rfl⟩ := map_ok.mp hms
      exact ⟨m, hm, rfl⟩
  | _ => exact nothing_ok

theorem methodPassAll_ok {c c' : Catalog} {scope : Ty} {u : Unit} (items : List Expr) :
    methodPassAll scope items c = .ok u c' ↔
      ∃ ms, methodsInAll c scope items = .ok ms ∧ c' = c.defineAll ms := by
  cases items with
  | nil => exact nothing_ok
  | cons item rest =>
    unfold methodPassAll methodsInAll
    rw [bind_ok]
    constructor
    · rintro ⟨_, c₁, hitem, hrest⟩
      obtain ⟨first, hfirst, rfl⟩ := (methodPass_ok item).mp hitem
      obtain ⟨others, hothers, rfl⟩ := (methodPassAll_ok rest).mp hrest
      rw [methodsInAll_congr (outline_defineAll c first)] at hothers
      refine ⟨first ++ others, ?_, (defineAll_append c first others).symm⟩
      rw [hfirst, hothers]
      rfl
    · rintro ⟨ms, hms, rfl⟩
      obtain ⟨first, hfirst, hms⟩ := except_bind_ok.mp hms
      obtain ⟨others, hothers, hms⟩ := except_bind_ok.mp hms
      obtain rfl := Except.ok.inj hms
      refine ⟨(), c.defineAll first, (methodPass_ok item).mpr ⟨first, hfirst, rfl⟩,
        (methodPassAll_ok rest).mpr ⟨others, ?_, defineAll_append c first others⟩⟩
      rw [methodsInAll_congr (outline_defineAll c first), hothers]

end

theorem methodsInAll_append (c : Catalog) (scope : Ty) (xs ys : List Expr) :
    methodsInAll c scope (xs ++ ys) = (do
      let first ← methodsInAll c scope xs
      let others ← methodsInAll c scope ys
      .ok (first ++ others)) := by
  induction xs with
  | nil =>
    show methodsInAll c scope ys = (methodsInAll c scope ys >>= fun others => .ok ([] ++ others))
    cases methodsInAll c scope ys <;> rfl
  | cons x xs ih =>
    show (methodsIn c scope x >>= fun first => methodsInAll c scope (xs ++ ys) >>= fun others =>
      .ok (first ++ others)) = _
    rw [ih]
    show _ = ((methodsIn c scope x >>= fun first => methodsInAll c scope xs >>= fun others =>
      .ok (first ++ others)) >>= fun first => methodsInAll c scope ys >>= fun others =>
      .ok (first ++ others))
    cases methodsIn c scope x with
    | error e => rfl
    | ok ms =>
      cases methodsInAll c scope xs with
      | error e => rfl
      | ok ms' =>
        cases methodsInAll c scope ys with
        | error e => rfl
        | ok ms'' => exact congrArg Except.ok (List.append_assoc ms ms' ms'').symm

theorem methodsInAll_method (c : Catalog) (scope : Ty) (own : Mark) (name : String)
    (onMetaclass : Bool) (params : List (WrittenParameter Expr)) (body : Expr) (rest : List Expr) :
    methodsInAll c scope (.methodDef own name onMetaclass params body :: rest) = (do
      let first ← (methodOf c scope name onMetaclass params body own.place).map ([·])
      let others ← methodsInAll c scope rest
      .ok (first ++ others)) := rfl

/-! ## Whose methods these are -/

/-- A method of a type or of its metaclass. -/
def BelongsTo (c : Catalog) (m : Method) (t : Ty) : Prop :=
  m.owner = t ∨ c.metaclass? t = some m.owner

theorem belongsTo_of_methodOf {name : String} {onMetaclass : Bool}
    {params : List (WrittenParameter Expr)} {body : Expr} {place : Place} {m : Method}
    (h : methodOf c scope name onMetaclass params body place = .ok m) :
    m.name = name ∧ BelongsTo c m scope := by
  obtain ⟨owner, howner, h⟩ := except_bind_ok.mp h
  obtain ⟨ps, -, h⟩ := except_bind_ok.mp h
  obtain rfl := Except.ok.inj h
  refine ⟨rfl, ?_⟩
  unfold methodOwner at howner
  split at howner
  · split at howner
    · next hmeta => exact .inr (hmeta.trans (congrArg some (Except.ok.inj howner)))
    · cases howner
  · exact .inl (Except.ok.inj howner).symm

/-- A metaclass is one of the type it belongs to. -/
theorem shape_of_metaclass? (ht : c.Apart t) {owner : Ty} (h : c.metaclass? t = some owner) :
    ∃ k, c.shape owner = .metaclass k t := by
  have hholder : c.metaclassHolder t = t := by
    have halone := ht.2
    unfold metaclassHolder resolvedShape
    rw [ht.resolve_eq]
    cases hs : c.shape t with
    | object o =>
      rw [hs] at halone
      exact congrArg (Option.getD · t) (Option.isNone_iff_eq_none.mp halone)
    | pointer pointee =>
      rw [hs] at halone
      cases pointee with
      | none => rfl
      | some u => cases halone
    | _ => rfl
  unfold metaclass? at h
  rw [hholder] at h
  dsimp only at h
  split at h
  · next k subject hshape =>
    split at h
    · next hsubject =>
      cases h
      exact ⟨k, hsubject ▸ hshape⟩
    · cases h
  · cases h

/-- Methods of types that stand for themselves have different owners, if the types differ. -/
theorem owner_ne (ht : c.Apart t) (hscope : c.Apart scope) (hne : t ≠ scope) {m n : Method}
    (hn : BelongsTo c n t) (hm : BelongsTo c m scope) : n.owner ≠ m.owner := by
  intro howner
  rcases hn with rfl | hn
  · rcases hm with rfl | hm
    · exact hne howner
    · obtain ⟨k, hshape⟩ := shape_of_metaclass? hscope hm
      have halone := ht.2
      rw [howner, hshape] at halone
      cases halone
  · obtain ⟨k, hshape⟩ := shape_of_metaclass? ht hn
    rcases hm with rfl | hm
    · have halone := hscope.2
      rw [← howner, hshape] at halone
      cases halone
    · obtain ⟨l, hshape'⟩ := shape_of_metaclass? hscope hm
      rw [howner, hshape'] at hshape
      exact hne (Shape.metaclass.inj hshape).2.symm

/-- What holds in the body of a later type holds around it. -/
theorem later_of_body {name : Method → Bool} {around : Method → Bool} {ms : List Method}
    (hlt : scope.index < t.index)
    (h : ∀ m ∈ ms, ∃ u, c.Apart u ∧ BelongsTo c m u ∧
      (u = t ∧ name m = true ∨ t.index < u.index)) :
    ∀ m ∈ ms, ∃ u, c.Apart u ∧ BelongsTo c m u ∧
      (u = scope ∧ around m = true ∨ scope.index < u.index) := by
  intro m hm
  obtain ⟨u, hu, hbelongs, hplace⟩ := h m hm
  refine ⟨u, hu, hbelongs, .inr ?_⟩
  rcases hplace with ⟨rfl, -⟩ | hbelow
  · exact hlt
  · exact Nat.lt_trans hlt hbelow

mutual

/-- A method of an expression is one of the type it stands in, unless it is one of a class or
module in it, which comes later. -/
theorem belongsTo_methodsIn {c : Catalog} {scope : Ty} (hc : c.Inward) (hscope : c.Apart scope)
    (e : Expr) {ms : List Method} (h : methodsIn c scope e = .ok ms) :
    ∀ m ∈ ms, ∃ t, c.Apart t ∧ BelongsTo c m t ∧
      (t = scope ∧ e.defines m.name = true ∨ scope.index < t.index) := by
  cases e with
  | sequence mark items => exact belongsTo_methodsInAll hc hscope items h
  | classDef mark name superclass generic body =>
    obtain ⟨t, ht, hms⟩ := except_bind_ok.mp h
    obtain ⟨hlt, hapart⟩ := hc.nested hscope (declared_ok ht)
    exact later_of_body hlt (belongsTo_methodsIn hc hapart body hms)
  | moduleDef mark name body =>
    obtain ⟨t, ht, hms⟩ := except_bind_ok.mp h
    obtain ⟨hlt, hapart⟩ := hc.nested hscope (declared_ok ht)
    exact later_of_body hlt (belongsTo_methodsIn hc hapart body hms)
  | methodDef mark name onMetaclass params body =>
    obtain ⟨m, hm, rfl⟩ := map_ok.mp h
    obtain ⟨hname, hbelongs⟩ := belongsTo_of_methodOf hm
    intro n hn
    obtain rfl := List.mem_singleton.mp hn
    refine ⟨scope, hscope, hbelongs, .inl ⟨rfl, ?_⟩⟩
    rw [hname]
    exact beq_self_eq_true name
  | _ =>
    cases h
    intro m hm
    cases hm

theorem belongsTo_methodsInAll {c : Catalog} {scope : Ty} (hc : c.Inward) (hscope : c.Apart scope)
    (items : List Expr) {ms : List Method} (h : methodsInAll c scope items = .ok ms) :
    ∀ m ∈ ms, ∃ t, c.Apart t ∧ BelongsTo c m t ∧
      (t = scope ∧ Expr.anyDefines m.name items = true ∨ scope.index < t.index) := by
  cases items with
  | nil =>
    cases h
    intro m hm
    cases hm
  | cons item rest =>
    obtain ⟨first, hfirst, h⟩ := except_bind_ok.mp h
    obtain ⟨others, hothers, h⟩ := except_bind_ok.mp h
    obtain rfl := Except.ok.inj h
    intro m hm
    rcases List.mem_append.mp hm with hm | hm
    · obtain ⟨t, ht, hbelongs, hplace⟩ := belongsTo_methodsIn hc hscope item hfirst m hm
      refine ⟨t, ht, hbelongs, hplace.imp_left fun ⟨heq, hdefines⟩ => ⟨heq, ?_⟩⟩
      exact Bool.or_eq_true_iff.mpr (.inl hdefines)
    · obtain ⟨t, ht, hbelongs, hplace⟩ := belongsTo_methodsInAll hc hscope rest hothers m hm
      refine ⟨t, ht, hbelongs, hplace.imp_left fun ⟨heq, hdefines⟩ => ⟨heq, ?_⟩⟩
      exact Bool.or_eq_true_iff.mpr (.inr hdefines)

end

/-! ## Methods in another order -/

/-- Lists that differ in the place of one method, which passes none that it clashes with. -/
def Shifted (c : Catalog) (ms ms' : List Method) : Prop :=
  ∃ before passed m after, ms = before ++ (passed ++ m :: after) ∧
    ms' = before ++ (m :: passed ++ after) ∧ ∀ n ∈ passed, ¬ c.Clash n m

theorem Shifted.within {ms ms' : List Method} (h : Shifted c ms ms') (before after : List Method) :
    Shifted c (before ++ (ms ++ after)) (before ++ (ms' ++ after)) := by
  obtain ⟨outer, passed, m, rest, rfl, rfl, hfree⟩ := h
  exact ⟨before ++ outer, passed, m, rest ++ after, by simp, by simp, hfree⟩

/-- Methods of the statements that a method passes do not clash with it. -/
theorem clashless (hc : c.Inward) (hplain : c.Plain) (hscope : c.Apart scope) {m : Method}
    (hm : BelongsTo c m scope) {passed : List Expr} (hname : Expr.anyDefines m.name passed = false)
    {ms : List Method} (h : methodsInAll c scope passed = .ok ms) : ∀ n ∈ ms, ¬ c.Clash n m := by
  rintro n hn ⟨hnames, k, hk, hk'⟩
  rw [hplain.cls?_eq] at hk hk'
  obtain ⟨t, ht, hbelongs, ⟨-, hdefines⟩ | hlt⟩ := belongsTo_methodsInAll hc hscope passed h n hn
  · rw [hnames, hname] at hdefines
    cases hdefines
  · have hne : t ≠ scope := by
      rintro rfl
      exact Nat.lt_irrefl _ hlt
    exact owner_ne ht hscope hne hbelongs hm (hc.tabled.own _ _ k hk hk')

/-- The same methods in another order, or failures of both. -/
inductive Shifts (c : Catalog) : Except TypingError (List Method) →
    Except TypingError (List Method) → Prop
  | ok {ms ms' : List Method} (h : Shifted c ms ms') : Shifts c (.ok ms) (.ok ms')
  | error (e e' : TypingError) : Shifts c (.error e) (.error e')

/-- Methods before and after stay where they are. -/
theorem Shifts.within {x x' before after : Except TypingError (List Method)} (h : Shifts c x x') :
    Shifts c
      (do
        let first ← before
        let others ← (do
          let found ← x
          let rest ← after
          .ok (found ++ rest))
        .ok (first ++ others))
      (do
        let first ← before
        let others ← (do
          let found ← x'
          let rest ← after
          .ok (found ++ rest))
        .ok (first ++ others)) := by
  cases before with
  | error e => exact .error e e
  | ok first =>
    cases h with
    | error e e' => exact .error e e'
    | ok h =>
      cases after with
      | error e => exact .error e e
      | ok rest => exact .ok (h.within first rest)

/-- Both programs declare the same methods in another order, or neither can. -/
theorem methodsIn_hoisted (hc : c.Inward) (hplain : c.Plain) (h : p.Hoisted q)
    (hscope : c.Apart scope) : Shifts c (methodsIn c scope p) (methodsIn c scope q) := by
  induction h generalizing scope with
  | moved mark before passed after own name onMetaclass params body hname =>
    show Shifts c (methodsInAll c scope (before ++ (passed ++ _)))
      (methodsInAll c scope (before ++ (_ :: (passed ++ after))))
    rw [methodsInAll_append, methodsInAll_append, methodsInAll_append, methodsInAll_method,
      methodsInAll_method, methodsInAll_append]
    cases methodsInAll c scope before with
    | error e => exact .error e e
    | ok first =>
      cases hpassed : methodsInAll c scope passed with
      | error e =>
        cases methodOf c scope name onMetaclass params body own.place <;> exact .error _ _
      | ok ms =>
        cases hm : methodOf c scope name onMetaclass params body own.place with
        | error e => exact .error e e
        | ok m =>
          cases methodsInAll c scope after with
          | error e => exact .error e e
          | ok rest =>
            obtain ⟨hown, hbelongs⟩ := belongsTo_of_methodOf hm
            exact .ok ⟨first, ms, m, rest, rfl, rfl,
              clashless hc hplain hscope hbelongs (hown ▸ hname) hpassed⟩
  | item mark before after _ ih =>
    show Shifts c (methodsInAll c scope (before ++ _ :: after))
      (methodsInAll c scope (before ++ _ :: after))
    rw [methodsInAll_append, methodsInAll_append]
    exact (ih hscope).within
  | classBody mark name superclass generic _ ih =>
    unfold methodsIn
    cases ht : c.declared scope name with
    | error e => exact .error e e
    | ok t => exact ih (hc.nested hscope (declared_ok ht)).2
  | moduleBody mark name _ ih =>
    unfold methodsIn
    cases ht : c.declared scope name with
    | error e => exact .error e e
    | ok t => exact ih (hc.nested hscope (declared_ok ht)).2

/-- Methods in another order have other handles. -/
theorem renumbers_shifted (hc : c.Numbered) {ms ms' : List Method} (h : Shifted c ms ms') :
    ∃ σ, (c.defineAll ms).Renumbers σ (c.defineAll ms') := by
  obtain ⟨before, passed, m, after, rfl, rfl, hfree⟩ := h
  obtain ⟨σ, hσ⟩ := renumbers_move (hc.defineAll before) fun n hn hclash =>
    hfree n hn (clash_congr (outline_defineAll c before) hclash)
  refine ⟨σ, ?_⟩
  rw [defineAll_append, defineAll_append c before, defineAll_append _ _ after,
    show passed ++ m :: after = passed ++ [m] ++ after by simp, defineAll_append _ _ after]
  exact hσ.defineAll after

/-- If one of the programs can be declared, both can, and only the handles of methods differ. -/
theorem declared_hoisted (h : p.Hoisted q) (hgood : declaring.Good c) (hcallable : c.Callable)
    (hc : c.Inward)
    (hdeclared : (∃ d, declareProgram p c = .ok () d) ∨ ∃ d, declareProgram q c = .ok () d) :
    ∃ σ d d', declareProgram p c = .ok () d ∧ declareProgram q c = .ok () d' ∧ d.Plain ∧
      d.Renumbers σ d' := by
  have htypes : typePass .main q c = typePass .main p c := by rw [typePass_hoisted h]
  unfold declareProgram at hdeclared ⊢
  rw [bind_eq, bind_eq, htypes] at hdeclared ⊢
  cases hpass : typePass .main p c with
  | error e d =>
    rw [hpass] at hdeclared
    rcases hdeclared with ⟨d, hd⟩ | ⟨d, hd⟩ <;> cases hd
  | ok u c₁ =>
    rw [hpass] at hdeclared
    obtain ⟨⟨-, hplain⟩, hdeclares, -⟩ := (keeps_typePass hc.main.definite p hgood).ok u c₁ hpass
    have hc₁ := inward_typePass hgood hc hc.main p hpass
    have hshifts := methodsIn_hoisted hc₁ hplain h hc₁.main
    have hp : ∀ d, methodPass .main p c₁ = .ok () d ↔
        ∃ ms, methodsIn c₁ .main p = .ok ms ∧ d = c₁.defineAll ms := fun d => methodPass_ok p
    have hq : ∀ d, methodPass .main q c₁ = .ok () d ↔
        ∃ ms, methodsIn c₁ .main q = .ok ms ∧ d = c₁.defineAll ms := fun d => methodPass_ok q
    have hnumbered : c₁.Numbered := (hdeclares.callable hcallable).numbered
    generalize methodsIn c₁ .main p = x at hshifts hp
    generalize methodsIn c₁ .main q = x' at hshifts hq
    cases hshifts with
    | error e e' =>
      rcases hdeclared with ⟨d, hd⟩ | ⟨d, hd⟩
      · obtain ⟨ms, hms, -⟩ := (hp d).mp hd
        cases hms
      · obtain ⟨ms, hms, -⟩ := (hq d).mp hd
        cases hms
    | @ok ms ms' hms =>
      obtain ⟨σ, hσ⟩ := renumbers_shifted hnumbered hms
      exact ⟨σ, _, _, (hp _).mpr ⟨ms, rfl, rfl⟩, (hq _).mpr ⟨ms', rfl, rfl⟩,
        hplain.defineAll ms, hσ⟩

end DeclareM

end FlowTyping
