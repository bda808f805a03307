/-
# Computations that may fail

A computation on a state that stops when it fails and leaves the state as it then is.
What every step keeps is kept by the whole computation, whether it fails or not.
-/

/-- A computation on the states `S`. -/
def Run (S A : Type) := S → Option A × S

namespace Run

variable {S A B : Type}

instance : Monad (Run S) where
  pure a s := (some a, s)
  bind x f s :=
    match x s with
    | (some a, s) => f a s
    | (none, s) => (none, s)

/-- The computation that fails. -/
def fail : Run S A := fun s => (none, s)

/-- The state. -/
def get : Run S S := fun s => (some s, s)

/-- Changes the state. -/
def modify (f : S → S) : Run S Unit := fun s => (some (), f s)

/-- Fails unless `c` holds. -/
def assert (c : Prop) [Decidable c] : Run S Unit := if c then pure () else fail

/-- A value, or failure. -/
def ofOption : Option A → Run S A
  | some a => pure a
  | none => fail

/-! ## What holds afterwards -/

/-- Whether `x` fails or not, what was before is related by `R` to what is afterwards, and a result
satisfies `post`. -/
def Keeps (x : Run S A) (R : S → S → Prop) (s : S) (post : A → S → Prop) : Prop :=
  R s (x s).2 ∧ ∀ a, (x s).1 = some a → post a (x s).2

/-- Whether `x` fails or not and whatever it gives, `R` relates the two states. -/
abbrev Leaves (x : Run S A) (R : S → S → Prop) (s : S) : Prop := x.Keeps R s fun _ _ => True

variable {x y : Run S A} {f : A → Run S B} {s s' : S} {c : Prop}

namespace Keeps

variable {R : S → S → Prop} {post : A → S → Prop} {post' : B → S → Prop}

/-- Without the result. -/
theorem leaves (h : x.Keeps R s post) : x.Leaves R s := ⟨h.1, fun _ _ => trivial⟩

/-- A result, and no change. -/
theorem pure {a : A} (hR : R s s) (ha : post a s) : (pure a : Run S A).Keeps R s post := by
  refine ⟨hR, fun b hb => ?_⟩
  obtain rfl := Option.some.inj hb
  exact ha

/-- Failure changes nothing. -/
theorem fail (hR : R s s) : (fail : Run S A).Keeps R s post := ⟨hR, fun _ hb => by cases hb⟩

/-- A change. -/
theorem modify {g : S → S} {post : Unit → S → Prop} (hR : R s (g s)) (hpost : post () (g s)) :
    (modify g).Keeps R s post := ⟨hR, fun _ _ => hpost⟩

/-- A value, if there is one. -/
theorem ofOption {o : Option A} (hR : R s s) (ho : ∀ a, o = some a → post a s) :
    (ofOption o : Run S A).Keeps R s post := by
  cases o with
  | none => exact .fail hR
  | some a => exact .pure hR (ho a rfl)

/-- Either branch, under its condition. -/
theorem ite [Decidable c] (hx : c → x.Keeps R s post) (hy : ¬ c → y.Keeps R s post) :
    (if c then x else y).Keeps R s post := by
  split
  · rename_i hc
    exact hx hc
  · rename_i hc
    exact hy hc

/-- The state is read first. -/
theorem get_bind {f : S → Run S B} (hf : (f s).Keeps R s post') : (get >>= f).Keeps R s post' := hf

/-- A value is looked up first. -/
theorem ofOption_bind {o : Option A} (hR : R s s) (hf : ∀ a, o = some a → (f a).Keeps R s post') :
    (Run.ofOption o >>= f).Keeps R s post' := by
  cases o with
  | none => exact .fail hR
  | some a => exact hf a rfl

/-- What follows a test may rely on it. -/
theorem assert_bind [Decidable c] {f : Unit → Run S B} (hR : R s s)
    (hf : c → (f ()).Keeps R s post') : (assert c >>= f).Keeps R s post' := by
  rw [assert]
  split
  · rename_i hc
    exact hf hc
  · exact .fail hR

/-- A change, and a result. -/
theorem modify_pure {g : S → S} {a : A} (hR : R s (g s)) (hpost : post a (g s)) :
    (Run.modify g >>= fun _ => Pure.pure a).Keeps R s post := by
  refine ⟨hR, fun b hb => ?_⟩
  obtain rfl := Option.some.inj hb
  exact hpost

variable [Trans R R R]

/-- The first computation may fail: then the second is not reached. -/
theorem bind (hx : x.Keeps R s post) (hf : ∀ a s', R s s' → post a s' → (f a).Keeps R s' post') :
    (x >>= f).Keeps R s post' := by
  obtain ⟨hR, hpost⟩ := hx
  rw [Keeps]
  show R s (match x s with | (some a, s) => f a s | (none, s) => (none, s)).2 ∧ ∀ b,
    (match x s with | (some a, s) => f a s | (none, s) => (none, s)).1 = some b →
      post' b (match x s with | (some a, s) => f a s | (none, s) => (none, s)).2
  rcases hrun : x s with ⟨o, s'⟩
  rw [hrun] at hR hpost
  cases o with
  | none => exact ⟨hR, fun b hb => by cases hb⟩
  | some a =>
    obtain ⟨hR', hpost'⟩ := hf a s' hR (hpost a rfl)
    exact ⟨Trans.trans hR hR', hpost'⟩

end Keeps

/-! ## Computations that do not fail -/

/-- From the state `s` the computation `x` does not fail, and its result and the state
afterwards satisfy `post`. -/
def Returns (x : Run S A) (s : S) (post : A → S → Prop) : Prop :=
  ∃ a s', x s = (some a, s') ∧ post a s'

namespace Returns

variable {post post' : A → S → Prop}

/-- Less of the result. -/
theorem imp (h : x.Returns s post) (himp : ∀ a s', post a s' → post' a s') :
    x.Returns s post' := by
  obtain ⟨a, s', hx, hpost⟩ := h
  exact ⟨a, s', hx, himp a s' hpost⟩

/-- The second computation starts where the first one ends. -/
theorem bind {post : B → S → Prop} (h : x.Returns s fun a s' => (f a).Returns s' post) :
    (x >>= f).Returns s post := by
  obtain ⟨a, s', hx, b, s'', hf, hpost⟩ := h
  refine ⟨b, s'', ?_, hpost⟩
  show (match x s with | (some a, s) => f a s | (none, s) => (none, s)) = _
  rw [hx]
  exact hf

/-- A result. -/
theorem pure {a : A} (h : post a s) : (pure a : Run S A).Returns s post := ⟨a, s, rfl, h⟩

/-- Reading the state. -/
theorem get {post : S → S → Prop} (h : post s s) : get.Returns s post := ⟨s, s, rfl, h⟩

/-- A change. -/
theorem modify {g : S → S} {post : Unit → S → Prop} (h : post () (g s)) :
    (modify g).Returns s post := ⟨(), g s, rfl, h⟩

/-- A test that holds. -/
theorem assert [Decidable c] {post : Unit → S → Prop} (hc : c) (h : post () s) :
    (assert c : Run S Unit).Returns s post := by
  rw [Run.assert, if_pos hc]
  exact .pure h

end Returns

/-! ## What every result satisfies -/

/-- Every result of `x` satisfies `post`, from whatever state. -/
def Always (x : Run S A) (post : A → Prop) : Prop := ∀ s a, (x s).1 = some a → post a

namespace Always

/-- A result. -/
theorem pure {a : A} {post : A → Prop} (h : post a) : (pure a : Run S A).Always post := by
  intro s b hb
  obtain rfl := Option.some.inj hb
  exact h

/-- What the first result satisfies may be used for the second. -/
theorem bind {pre : A → Prop} {post : B → Prop} (hx : x.Always pre)
    (h : ∀ a, pre a → (f a).Always post) : (x >>= f).Always post := by
  intro s b hb
  change (match x s with | (some a, s) => f a s | (none, s) => (none, s)).1 = some b at hb
  split at hb
  · rename_i a s' hxs
    exact h a (hx s a (by rw [hxs])) s' b hb
  · cases hb

/-- Only the second result counts. -/
theorem seq {post : B → Prop} (h : ∀ a, (f a).Always post) : (x >>= f).Always post :=
  .bind (fun _ _ _ => trivial : x.Always fun _ => True) fun a _ => h a

/-- Either branch. -/
theorem ite [Decidable c] {post : A → Prop} (hx : x.Always post) (hy : y.Always post) :
    (if c then x else y).Always post := by
  split
  · exact hx
  · exact hy

end Always

end Run
