import FlowTyping.Proofs.Catalog.Lookup
import FlowTyping.Proofs.Inference.Advance

/-
  Who is to blame for an error

  An error that is met while something is typed goes back to a call that has no
  result for some types (`Catalog.Refuses`), or to the text itself (`Mistake`). The
  frames around it are those of the instances that were being typed, and a call
  that was entered in these has recorded the same frames (`Run.Blames`).
-/
namespace FlowTyping

theorem Site.eq_of_index {a b : Site} (h : a.index = b.index) : a = b := by
  cases a
  cases b
  exact congrArg Site.mk h

/-! ## Errors in frames -/

namespace TypingError

/-- The error inside the frames of instances, innermost first. -/
def within (e : TypingError) (frames : List Frame) : TypingError :=
  frames.foldl (fun e frame => .instantiating frame.signature frame.place e) e

variable {e : TypingError} {frames inner outer : List Frame}

theorem within_append : e.within (inner ++ outer) = (e.within inner).within outer :=
  List.foldl_append

/-- The frame of an instance goes around those of the instances that were typed inside it. -/
theorem instantiating_within {frame : Frame} :
    instantiating frame.signature frame.place (e.within inner) = e.within (inner ++ [frame]) := by
  rw [within_append]
  rfl

theorem origin_within : (e.within frames).origin = e.origin := by
  induction frames generalizing e with
  | nil => rfl
  | cons frame frames ih => exact ih

end TypingError

/-! ## What a call is dispatched to -/

/-- What a call does that selected no definition. -/
def missed (c : Catalog) (call : CallSite) (owner : Ty) (miss : Miss) : Dispatch :=
  if call.name = "new" ∧ miss = .undefined then
    match c.constructed owner with
    | some t => .construct t
    | none => .miss miss
  else .miss miss

theorem missed_cases (c : Catalog) (call : CallSite) (owner : Ty) (miss : Miss) :
    (∃ t, missed c call owner miss = .construct t ∧ c.constructed owner = some t) ∨
      ∃ shown, missed c call owner miss = .miss shown := by
  unfold missed
  split
  · split
    · next t ht => exact .inl ⟨t, rfl, ht⟩
    · exact .inr ⟨_, rfl⟩
  · exact .inr ⟨_, rfl⟩

/-- A definition is selected on the owner or on the root namespace, and `new` makes what its owner
constructs. -/
theorem dispatch_cases (c : Catalog) (call : CallSite) (owner : Ty) (arguments : List Ty) :
    (∃ o id, c.dispatch call owner arguments = .method o id ∧ (o = owner ∨ o = .main) ∧
      c.select o ⟨call.name, arguments, call.block.isSome, o⟩ = .ok id) ∨
    (∃ t, c.dispatch call owner arguments = .construct t ∧ c.constructed owner = some t) ∨
    ∃ miss, c.dispatch call owner arguments = .miss miss := by
  unfold Catalog.dispatch
  dsimp only
  split
  · next id hid => exact .inl ⟨owner, id, rfl, .inl rfl, hid⟩
  · split
    · next id hid =>
      refine .inl ⟨.main, id, rfl, .inr rfl, ?_⟩
      split at hid
      · exact Option.some.inj hid
      · cases hid
    · exact .inr (missed_cases c call owner _)

/-! ## Calls that are refused -/

/-- The problems that the resolution of a call can end with. -/
def Problem.isOfCall : Problem → Bool
  | .missingMember _ _ | .noOverload _ _ _ | .tiedOverloads _ _ _ => true
  | _ => false

namespace Catalog

/-- A call makes a new value and initializes it as one of type `self`. -/
def Initializes (c : Catalog) (call : CallSite) (owner : Ty) (arguments : List Ty) (self : Ty) :
    Prop :=
  ∃ t, c.dispatch call owner arguments = .construct t ∧ (self = t ∨ c.Specializes self t)

/-- A call uses a definition on `self`: it is dispatched to it, or initializes a new value with
it. -/
def Uses (c : Catalog) (call : CallSite) (owner : Ty) (arguments : List Ty) (self : Ty)
    (id : MethodHandle) : Prop :=
  c.dispatch call owner arguments = .method self id ∨
    c.Initializes call owner arguments self ∧
      c.select self (call.initializing self arguments) = .ok id

/-- A call has no result for the types of its receiver and arguments, and why: it is dispatched to
nothing, what is new has no initializer, or a builtin method does not find the member it is for. -/
inductive Refuses (c : Catalog) (call : CallSite) (owner : Ty) (arguments : List Ty) :
    TypingError → Prop
  | dispatched {miss : Miss} (hmiss : c.dispatch call owner arguments = .miss miss) :
      c.Refuses call owner arguments (c.missError owner call.name arguments miss call.place)
  | initialized {self : Ty} {miss : Miss} (hnew : c.Initializes call owner arguments self)
      (hmiss : c.select self (call.initializing self arguments) = .error miss)
      (hneeded : ¬ (miss = .undefined ∧ arguments = [])) :
      c.Refuses call owner arguments (c.missError self "initialize" arguments miss call.place)
  | builtin {self : Ty} {id : MethodHandle} {b : Builtin}
      (huses : c.Uses call owner arguments self id) (hbody : (c.method id).body = .builtin b)
      (htype : c.builtinType self (c.method id).name b arguments call.place =
        .error (.located (.missingMember (c.display self) (c.method id).name) call.place)) :
      c.Refuses call owner arguments
        (.located (.missingMember (c.display self) (c.method id).name) call.place)

variable {c : Catalog} {call : CallSite} {owner self : Ty} {id : MethodHandle} {arguments : List Ty}
  {e : TypingError}

theorem select_of_dispatch (h : c.dispatch call owner arguments = .method self id) :
    c.select self ⟨call.name, arguments, call.block.isSome, self⟩ = .ok id := by
  rcases dispatch_cases c call owner arguments with
    ⟨_, _, heq, -, hid⟩ | ⟨_, heq, -⟩ | ⟨_, heq⟩ <;> cases h.symm.trans heq
  exact hid

/-- What a call uses takes the arguments that it is used with. -/
theorem Callable.takes_of_uses (hc : c.Callable) (h : c.Uses call owner arguments self id) :
    (c.method id).Takes arguments := by
  rcases h with h | ⟨-, h⟩
  · exact hc.takes (select_of_dispatch h)
  · exact hc.takes h

/-- A builtin method that is given what it asks for fails for want of a member. -/
theorem eq_of_builtinType {name : String} {b : Builtin} {place : Place}
    (hgiven : (Body.builtin b).writes = true → arguments ≠ [])
    (h : c.builtinType owner name b arguments place = .error e) :
    e = .located (.missingMember (c.display owner) name) place := by
  unfold builtinType at h
  cases b with
  | fixed t => cases h
  | allocate => cases h
  | firstArgument =>
    cases arguments with
    | nil => exact absurd rfl (hgiven rfl)
    | cons t ts => cases h
  | _ =>
    dsimp only at h
    split at h
    · cases h
    · cases h
      rfl

/-- A call that uses a builtin method is refused if this fails. -/
theorem Callable.refuses (hc : c.Callable) {b : Builtin}
    (huses : c.Uses call owner arguments self id) (hbody : (c.method id).body = .builtin b)
    (h : c.builtinType self (c.method id).name b arguments call.place = .error e) :
    c.Refuses call owner arguments e := by
  obtain rfl := eq_of_builtinType
    (fun hwrites => (hc.takes_of_uses huses).given (hbody ▸ hwrites)) h
  exact .builtin huses hbody h

/-- A refused call is reported at its place, with a problem of calls. -/
theorem Refuses.located (h : c.Refuses call owner arguments e) :
    ∃ problem, e = .located problem call.place ∧ problem.isOfCall = true := by
  have hmiss : ∀ (owner : Ty) (name : String) (miss : Miss),
      ∃ problem, c.missError owner name arguments miss call.place = .located problem call.place ∧
        problem.isOfCall = true := by
    intro owner name miss
    cases miss <;> exact ⟨_, rfl, rfl⟩
  cases h with
  | dispatched => exact hmiss _ _ _
  | initialized => exact hmiss _ _ _
  | builtin => exact ⟨_, rfl, rfl⟩

end Catalog

/-! ## Blame -/

namespace Run

/-- A call is being resolved for these types, which its receiver and arguments had when that
began. -/
def Asks (r : Run) (site : Site) (owner : Ty) (arguments : List Ty) : Prop :=
  ∃ r₀ : Run, r₀.Grows r ∧ r₀.Chooses (r₀.site site) owner arguments

/-- A call is refused for types that its receiver and arguments had. -/
def Refuses (r : Run) (site : Site) (e : TypingError) : Prop :=
  ∃ owner arguments, r.Asks site owner arguments ∧
    r.catalog.Refuses (r.site site) owner arguments e

/-- A call was entered in an instance that was typed for the call `first`, with `outer` around it. -/
def Inside (r : Run) (site first : Site) (outer : List Frame) : Prop :=
  ∃ signature, (r.site site).frames = ⟨signature, (r.site first).place⟩ :: outer

/-- What is recorded of calls stays, and a call that is entered lies inside the instance that is
being typed, which `frames` begin with, or inside one that is typed on the way: for the call that is
being resolved, or for one that was entered before. -/
structure Nests (frames : List Frame) (resolving : Option Site) (r r' : Run) : Prop where
  size : r.sites.size ≤ r'.sites.size
  kept : ∀ site : Site, site.index < r.sites.size →
    (r'.site site).frames = (r.site site).frames ∧ (r'.site site).place = (r.site site).place
  inside : ∀ site : Site, r.sites.size ≤ site.index → site.index < r'.sites.size →
    (resolving = none ∧ (r'.site site).frames = frames) ∨
    (∃ first, resolving = some first ∧ first.index < r'.sites.size ∧
      r'.Inside site first frames) ∨
    ∃ first : Site, r.sites.size ≤ first.index ∧ first.index < site.index ∧
      r'.Inside site first (r'.site first).frames

/-- What is to blame for an error that is met after `r`, when the run has become `r'`, where `frames`
are those of the instances that are being typed, innermost first, and `resolving` is the call that
is being resolved if it may be to blame itself. -/
inductive Blames (frames : List Frame) (resolving : Option Site) (r r' : Run) : TypingError → Prop
  /-- The call that is being resolved is refused. -/
  | resolved {e : TypingError} (site : Site) (hsite : resolving = some site)
      (hrefuses : r'.Refuses site e) : r.Blames frames resolving r' e
  /-- A call that was entered since is refused; the instances in `inner` were being typed when it was
  entered, and are still. -/
  | entered {e : TypingError} (site : Site) (inner : List Frame) (hnew : r.sites.size ≤ site.index)
      (hsite : site.index < r'.sites.size) (hframes : (r'.site site).frames = inner ++ frames)
      (hrefuses : r'.Refuses site e) :
      r.Blames frames resolving r' (e.within inner)
  | text {e : TypingError} (inner : List Frame) (hmistake : Mistake e) :
      r.Blames frames resolving r' (e.within inner)

/-- How a run may stop after `r`. -/
def Stops (frames : List Frame) (resolving : Option Site) (r : Run) : Halt → Run → Prop
  | .failed e, r' => r.Blames frames resolving r' e
  | _, _ => True

variable {frames inner : List Frame} {resolving : Option Site} {r r₁ r' : Run} {site : Site}
  {e : TypingError} {frame : Frame}

namespace Nests

theorem of_sites (h : r'.sites = r.sites) : r.Nests frames resolving r' := by
  refine ⟨Nat.le_of_eq (by rw [h]), fun s _ => ?_, fun s hle hlt => ?_⟩
  · rw [Run.site, Run.site, h]
    exact ⟨rfl, rfl⟩
  · rw [h] at hlt
    exact absurd hlt (Nat.not_lt.mpr hle)

theorem of_retains (h : r.Retains r') (hcount : r'.sites.size = r.sites.size) :
    r.Nests frames resolving r' := by
  refine ⟨h.sites, fun s hs => ?_, fun s hle hlt => absurd hlt (Nat.not_lt.mpr (hcount ▸ hle))⟩
  obtain ⟨targets, heq⟩ := h.site s hs
  rw [heq]
  exact ⟨rfl, rfl⟩

theorem inside_of_inside {first : Site} {outer : List Frame} (h : r.Nests frames resolving r')
    (hsite : site.index < r.sites.size) (hfirst : first.index < r.sites.size)
    (hinside : r.Inside site first outer) : r'.Inside site first outer := by
  obtain ⟨signature, heq⟩ := hinside
  exact ⟨signature, by rw [(h.kept site hsite).1, (h.kept first hfirst).2, heq]⟩

theorem trans (h₁ : r.Nests frames resolving r₁) (h₂ : r₁.Nests frames resolving r') :
    r.Nests frames resolving r' where
  size := Nat.le_trans h₁.size h₂.size
  kept s hs := by
    obtain ⟨hframes₁, hplace₁⟩ := h₁.kept s hs
    obtain ⟨hframes₂, hplace₂⟩ := h₂.kept s (Nat.lt_of_lt_of_le hs h₁.size)
    exact ⟨hframes₂.trans hframes₁, hplace₂.trans hplace₁⟩
  inside s hle hlt := by
    rcases Nat.lt_or_ge s.index r₁.sites.size with hs | hs
    · rcases h₁.inside s hle hs with ⟨hnone, heq⟩ | ⟨first, hfirst, hold, hin⟩ |
        ⟨first, hnew, hearlier, hin⟩
      · exact .inl ⟨hnone, (h₂.kept s hs).1.trans heq⟩
      · exact .inr (.inl ⟨first, hfirst, Nat.lt_of_lt_of_le hold h₂.size,
          h₂.inside_of_inside hs hold hin⟩)
      · have hfirst := Nat.lt_trans hearlier hs
        refine .inr (.inr ⟨first, hnew, hearlier, ?_⟩)
        rw [(h₂.kept first hfirst).1]
        exact h₂.inside_of_inside hs hfirst hin
    · rcases h₂.inside s hs hlt with hdirect | hresolving | ⟨first, hnew, hearlier, hin⟩
      · exact .inl hdirect
      · exact .inr (.inl hresolving)
      · exact .inr (.inr ⟨first, Nat.le_trans h₁.size hnew, hearlier, hin⟩)

/-- What is entered while an instance is typed for the call that is being resolved. -/
theorem of_instance (h : r.Nests (frame :: frames) none r') (hsite : site.index < r.sites.size)
    (hframe : frame.place = (r.site site).place) : r.Nests frames (some site) r' := by
  refine ⟨h.size, h.kept, fun s hle hlt => .inr ?_⟩
  rcases h.inside s hle hlt with ⟨-, heq⟩ | ⟨first, hnone, -⟩ | hlater
  · refine .inl ⟨site, rfl, Nat.lt_of_lt_of_le hsite h.size, frame.signature, ?_⟩
    rw [heq, (h.kept site hsite).2, ← hframe]
  · cases hnone
  · exact .inr hlater

/-- What is entered from the time on when a call is entered and resolved. -/
theorem of_first (h : r₁.Nests frames (some site) r') (hsites : r₁.sites.size = r.sites.size + 1)
    (hkept : ∀ s : Site, s.index < r.sites.size → r₁.site s = r.site s)
    (hsite : site.index = r.sites.size) (hframes : (r₁.site site).frames = frames) :
    r.Nests frames none r' := by
  have hlt : site.index < r₁.sites.size := by omega
  refine ⟨by have := h.size; omega, fun s hs => ?_, fun s hle hs => ?_⟩
  · rw [← hkept s hs]
    exact h.kept s (by omega)
  · rcases Nat.lt_or_ge s.index r₁.sites.size with hnew | hnew
    · obtain rfl : s = site := Site.eq_of_index (by omega)
      exact .inl ⟨rfl, (h.kept s hlt).1.trans hframes⟩
    · rcases h.inside s hnew hs with ⟨hnone, -⟩ | ⟨first, hfirst, -, hin⟩ | ⟨first, hnew', hearlier, hin⟩
      · cases hnone
      · cases hfirst
        refine .inr (.inr ⟨site, by omega, by omega, ?_⟩)
        rw [(h.kept site hlt).1, hframes]
        exact hin
      · exact .inr (.inr ⟨first, by omega, hearlier, hin⟩)

end Nests

theorem Grows.asks {owner : Ty} {arguments : List Ty} (hg : r.Grows r')
    (h : r.Asks site owner arguments) : r'.Asks site owner arguments := by
  obtain ⟨r₀, hg₀, hchoice⟩ := h
  exact ⟨r₀, hg₀.trans hg, hchoice⟩

theorem Blames.of_retains (h : r₁.Blames frames resolving r' e) (hr : r.Retains r₁) :
    r.Blames frames resolving r' e := by
  cases h with
  | resolved site hsite hrefuses => exact .resolved site hsite hrefuses
  | entered site inner hnew hsite hframes hrefuses =>
    exact .entered site inner (Nat.le_trans hr.sites hnew) hsite hframes hrefuses
  | text inner hmistake => exact .text inner hmistake

theorem Stops.of_retains {halt : Halt} (h : r₁.Stops frames resolving halt r')
    (hr : r.Retains r₁) : r.Stops frames resolving halt r' := by
  cases halt with
  | failed e => exact Blames.of_retains h hr
  | _ => trivial

theorem stops_of_mistake (h : Mistake e) : r.Stops frames resolving (.failed e) r' :=
  Blames.text [] h

/-- The call that is being resolved is refused at once. -/
theorem stops_of_refuses {owner : Ty} {arguments : List Ty} (hasks : r.Asks site owner arguments)
    (h : r.catalog.Refuses (r.site site) owner arguments e) :
    r.Stops frames (some site) (.failed e) r :=
  Blames.resolved site rfl ⟨owner, arguments, hasks, h⟩

/-- An error that is met while an instance is typed gets its frame. -/
theorem Blames.instantiating (h : r.Blames (frame :: frames) none r' e) :
    r.Blames frames resolving r' (.instantiating frame.signature frame.place e) := by
  cases h with
  | resolved site hsite => cases hsite
  | @entered e site inner hnew hsite hframes hrefuses =>
    rw [TypingError.instantiating_within]
    refine .entered site _ hnew hsite (hframes.trans ?_) hrefuses
    rw [List.append_assoc]
    rfl
  | @text e inner hmistake =>
    rw [TypingError.instantiating_within]
    exact .text _ hmistake

/-- A call that is resolved when it is entered is one of those that were entered since. -/
theorem Blames.of_first (h : r₁.Blames frames (some site) r' e) (hr : r.Retains r₁)
    (hnew : r.sites.size ≤ site.index) (hsite : site.index < r'.sites.size)
    (hframes : (r'.site site).frames = frames) : r.Blames frames none r' e := by
  cases h with
  | resolved other hother hrefuses =>
    cases hother
    exact .entered site [] hnew hsite hframes hrefuses
  | entered other inner hother hlt heq hrefuses =>
    exact .entered other inner (Nat.le_trans hr.sites hother) hlt heq hrefuses
  | text inner hmistake => exact .text inner hmistake

end Run

end FlowTyping
