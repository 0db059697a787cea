import Mathlib.Data.List.Forall2

/-!
# Steps that may fail

What a chain of steps has done, once it is known to have succeeded.
-/

namespace Constituency

variable {α β γ δ ε ε' : Type}

@[simp] theorem bind_eq_ok {x : Except ε α} {f : α → Except ε β} {b : β} :
    x >>= f = .ok b ↔ ∃ a, x = .ok a ∧ f a = .ok b := by
  cases x <;> simp [bind, Except.bind]

@[simp] theorem map_eq_ok {x : Except ε α} {f : α → β} {b : β} :
    x.map f = .ok b ↔ ∃ a, x = .ok a ∧ f a = b := by
  cases x <;> simp [Except.map]

@[simp] theorem mapError_eq_ok {x : Except ε α} {f : ε → ε'} {a : α} :
    x.mapError f = .ok a ↔ x = .ok a := by
  cases x with
  | error e => exact ⟨nofun, nofun⟩
  | ok b =>
    have hmap : (Except.ok b : Except ε α).mapError f = .ok b := rfl
    simp [hmap]

/-- Whether a computation fails in a certain way can be told without comparing results. -/
instance decidableEqError [DecidableEq ε] (x : Except ε α) (e : ε) : Decidable (x = .error e) :=
  match x with
  | .error e' => decidable_of_iff (e' = e) (by simp)
  | .ok _ => isFalse nofun

theorem toOption_bind_eq_some {x : Except ε α} {f : α → Option β} {b : β} :
    x.toOption.bind f = some b ↔ ∃ a, x = .ok a ∧ f a = some b := by
  cases x <;> simp [Except.toOption]

theorem mem_of_mapM_eq_ok {f : α → Except ε β} {l : List α} {results : List β}
    (h : l.mapM f = .ok results) {b : β} : b ∈ results ↔ ∃ a ∈ l, f a = .ok b := by
  induction l generalizing results with
  | nil =>
    obtain rfl : [] = results := by simpa [pure, Except.pure] using h
    simp
  | cons a l ih =>
    simp only [List.mapM_cons, bind_eq_ok, pure, Except.pure, Except.ok.injEq] at h
    obtain ⟨first, hfirst, rest, hrest, rfl⟩ := h
    simp [hfirst, ih hrest, eq_comm]

theorem exists_mapM_eq_ok {f : α → Except ε β} {l : List α} :
    (∃ results, l.mapM f = .ok results) ↔ ∀ a ∈ l, ∃ b, f a = .ok b := by
  induction l with
  | nil => exact ⟨by simp, fun _ => ⟨[], rfl⟩⟩
  | cons a l ih =>
    rw [List.forall_mem_cons, ← ih]
    simp only [List.mapM_cons, bind_eq_ok, pure, Except.pure, Except.ok.injEq]
    constructor
    · intro h
      obtain ⟨_, b, hb, results, hresults, -⟩ := h
      exact ⟨⟨b, hb⟩, results, hresults⟩
    · intro h
      obtain ⟨⟨b, hb⟩, results, hresults⟩ := h
      exact ⟨b :: results, b, hb, results, hresults, rfl⟩

theorem mapM_eq_ok_map {f : α → Except ε β} {g : α → β} {l : List α}
    (h : ∀ a ∈ l, f a = .ok (g a)) : l.mapM f = .ok (l.map g) := by
  induction l with
  | nil => rfl
  | cons a l ih =>
    obtain ⟨ha, hl⟩ := List.forall_mem_cons.mp h
    rw [List.mapM_cons, ha, ih hl]
    rfl

/-- What each step keeps, a chain of steps keeps. The invariant may speak of the steps to come. -/
theorem foldlM_keeps {f : β → α → Except ε β} (inv : List α → β → Prop) {l : List α} {b b' : β}
    (step : ∀ a ∈ l, ∀ rest b b', inv (a :: rest) b → f b a = .ok b' → inv rest b')
    (hb : inv l b) (h : l.foldlM f b = .ok b') : inv [] b' := by
  induction l generalizing b with
  | nil =>
    obtain rfl : b = b' := by simpa [pure, Except.pure] using h
    exact hb
  | cons a l ih =>
    simp only [List.foldlM_cons, bind_eq_ok] at h
    obtain ⟨middle, hfirst, hrest⟩ := h
    have hmiddle := step a List.mem_cons_self l b middle hb hfirst
    apply ih _ hmiddle hrest
    intro c hc
    exact step c (List.mem_cons_of_mem a hc)

/-- Steps that always succeed. -/
theorem foldlM_eq_ok_foldl {f : β → α → Except ε β} {g : β → α → β} {l : List α}
    (h : ∀ a ∈ l, ∀ b, f b a = .ok (g b a)) (b : β) : l.foldlM f b = .ok (l.foldl g b) := by
  induction l generalizing b with
  | nil => rfl
  | cons a l ih =>
    obtain ⟨ha, hl⟩ := List.forall_mem_cons.mp h
    rw [List.foldlM_cons, List.foldl_cons, ← ih hl (g b a)]
    simp only [ha b, bind, Except.bind]

/-- Two chains of steps end alike, or both come to a step that they take differently. -/
theorem foldlM_eq_or_part (f g : β → α → Except ε β) (l : List α) (b : β) :
    l.foldlM f b = l.foldlM g b ∨ ∃ before a after b', l = before ++ a :: after ∧
      before.foldlM f b = .ok b' ∧ before.foldlM g b = .ok b' ∧ f b' a ≠ g b' a := by
  induction l generalizing b with
  | nil => exact .inl rfl
  | cons a l ih =>
    by_cases hstep : f b a = g b a
    · rw [List.foldlM_cons, List.foldlM_cons, hstep]
      cases hfirst : g b a with
      | error e => exact .inl rfl
      | ok middle =>
        rcases ih middle with heq | ⟨before, c, after, b', rfl, hf, hg, hne⟩
        · exact .inl heq
        · refine .inr ⟨a :: before, c, after, b', rfl, ?_, ?_, hne⟩
          · rw [List.foldlM_cons, hstep, hfirst]
            exact hf
          · rw [List.foldlM_cons, hfirst]
            exact hg
    · exact .inr ⟨[], a, l, b, rfl, rfl, rfl, hstep⟩

/-- A chain fails where one of its steps fails. -/
theorem exists_of_foldlM_eq_error {f : β → α → Except ε β} {l : List α} {b : β} {e : ε}
    (h : l.foldlM f b = .error e) : ∃ a ∈ l, ∃ b', f b' a = .error e := by
  induction l generalizing b with
  | nil => cases h
  | cons a l ih =>
    rw [List.foldlM_cons] at h
    cases hfirst : f b a with
    | error e' =>
      rw [hfirst] at h
      cases h
      exact ⟨a, List.mem_cons_self, b, hfirst⟩
    | ok middle =>
      rw [hfirst] at h
      obtain ⟨c, hc, hstep⟩ := ih h
      exact ⟨c, List.mem_cons_of_mem a hc, hstep⟩

/-- A computation that fails with the error, or if there is none has a result of the kind. -/
inductive Ends (R : α → Prop) : Option ε → Except ε α → Prop where
  | error (e : ε) : Ends R (some e) (.error e)
  | ok {a : α} (h : R a) : Ends R none (.ok a)

namespace Ends

variable {R : α → Prop} {S : β → Prop} {x : Except ε α} {error? error?' : Option ε}

theorem eq_error {e : ε} (h : Ends R (some e) x) : x = .error e := by
  cases h
  rfl

theorem exists_eq_ok (h : Ends R none x) : ∃ a, x = .ok a ∧ R a := by
  cases h with
  | ok h => exact ⟨_, rfl, h⟩

theorem eq_some_of_eq_error {e : ε} (h : Ends R error? x) (hx : x = .error e) :
    error? = some e := by
  subst hx
  cases h
  rfl

theorem mono {R' : α → Prop} (h : Ends R error? x) (hR : ∀ a, x = .ok a → R a → R' a) :
    Ends R' error? x := by
  cases h with
  | error e => exact .error e
  | ok h => exact .ok (hR _ rfl h)

theorem bind {f : α → Except ε β} (h : Ends R error? x)
    (hf : ∀ a, R a → Ends S error?' (f a)) : Ends S (error?.or error?') (x >>= f) := by
  cases h with
  | error e => exact .error e
  | ok h => exact hf _ h

theorem map {f : α → β} (h : Ends R error? x) (hf : ∀ a, R a → S (f a)) :
    Ends S error? (x.map f) := by
  cases h with
  | error e => exact .error e
  | ok h => exact .ok (hf _ h)

theorem mapError {f : ε → ε'} (h : Ends R error? x) : Ends R (error?.map f) (x.mapError f) := by
  cases h with
  | error e => exact .error (f e)
  | ok h => exact .ok h

theorem findSome?_cons_eq_or {bad? : γ → Option ε} (c : γ) (l : List γ) :
    (c :: l).findSome? bad? = (bad? c).or (l.findSome? bad?) := by
  cases hc : bad? c <;> simp [hc]

/-- The first element that fails decides. -/
theorem mapM {f : γ → Except ε α} {bad? : γ → Option ε} {l : List γ}
    (h : ∀ c ∈ l, Ends R (bad? c) (f c)) :
    Ends (fun results => ∀ a ∈ results, R a) (l.findSome? bad?) (l.mapM f) := by
  induction l with
  | nil => exact .ok (by simp)
  | cons c l ih =>
    obtain ⟨hc, hl⟩ := List.forall_mem_cons.mp h
    rw [List.mapM_cons, findSome?_cons_eq_or]
    apply hc.bind
    intro a ha
    rw [← Option.or_none (o := l.findSome? bad?)]
    apply (ih hl).bind
    intro results hresults
    exact .ok (List.forall_mem_cons.mpr ⟨ha, hresults⟩)

/-- The first step that fails decides, wherever the steps before may have led. -/
theorem foldlM {f : β → γ → Except ε β} {bad? : γ → Option ε} {l : List γ} {b : β}
    (step : ∀ c ∈ l, ∀ b, S b → Ends S (bad? c) (f b c)) (hb : S b) :
    Ends S (l.findSome? bad?) (l.foldlM f b) := by
  induction l generalizing b with
  | nil => exact .ok hb
  | cons c l ih =>
    rw [List.foldlM_cons, findSome?_cons_eq_or]
    apply (step c List.mem_cons_self b hb).bind
    intro b' hb'
    exact ih (fun d hd => step d (List.mem_cons_of_mem c hd)) hb'

end Ends

/-- Two computations that both succeed, with related results, or both fail, for related reasons. -/
inductive Alike (E : ε → ε' → Prop) (R : α → β → Prop) : Except ε α → Except ε' β → Prop where
  | error {e : ε} {e' : ε'} (h : E e e') : Alike E R (.error e) (.error e')
  | ok {a : α} {b : β} (h : R a b) : Alike E R (.ok a) (.ok b)

namespace Alike

variable {E : ε → ε' → Prop} {R : α → β → Prop} {S : γ → δ → Prop} {x : Except ε α}
  {y : Except ε' β}

theorem bind {f : α → Except ε γ} {g : β → Except ε' δ} (h : Alike E R x y)
    (hfg : ∀ a b, R a b → Alike E S (f a) (g b)) : Alike E S (x >>= f) (y >>= g) := by
  cases h with
  | error h => exact .error h
  | ok h => exact hfg _ _ h

theorem mono {R' : α → β → Prop} (h : Alike E R x y) (hR : ∀ a b, R a b → R' a b) :
    Alike E R' x y := by
  cases h with
  | error h => exact .error h
  | ok h => exact .ok (hR _ _ h)

theorem mapError {φ φ' : Type} {F : φ → φ' → Prop} {f : ε → φ} {g : ε' → φ'} (h : Alike E R x y)
    (hfg : ∀ e e', E e e' → F (f e) (g e')) : Alike F R (x.mapError f) (y.mapError g) := by
  cases h with
  | error h => exact .error (hfg _ _ h)
  | ok h => exact .ok h

theorem mapM {f : γ → Except ε α} {g : γ → Except ε' β} {l : List γ}
    (h : ∀ c ∈ l, Alike E R (f c) (g c)) : Alike E (List.Forall₂ R) (l.mapM f) (l.mapM g) := by
  induction l with
  | nil => exact .ok .nil
  | cons c l ih =>
    obtain ⟨hc, hl⟩ := List.forall_mem_cons.mp h
    rw [List.mapM_cons, List.mapM_cons]
    apply hc.bind
    intro a b hab
    apply (ih hl).bind
    intro as bs hrest
    exact .ok (.cons hab hrest)

/-- Chains of the same steps, side by side. -/
theorem foldlM {f : α → γ → Except ε α} {g : β → γ → Except ε' β} {l : List γ} {a : α} {b : β}
    (step : ∀ c ∈ l, ∀ a b, R a b → Alike E R (f a c) (g b c)) (h : R a b) :
    Alike E R (l.foldlM f a) (l.foldlM g b) := by
  induction l generalizing a b with
  | nil => exact .ok h
  | cons c l ih =>
    rw [List.foldlM_cons, List.foldlM_cons]
    apply (step c List.mem_cons_self a b h).bind
    intro a b hab
    exact ih (fun d hd => step d (List.mem_cons_of_mem c hd)) hab

end Alike

/-- A chain within another one. The outer chain takes the steps of the inner one, in their order,
and between them steps that the inner one has nothing to do with. If the outer chain succeeds, so
does the inner one. -/
theorem exists_foldlM_of_filter {E : ε → ε' → Prop} {R : α → β → Prop} {Q : γ → δ → Prop}
    {f : α → γ → Except ε α} {g : β → δ → Except ε' β} {p : δ → Bool} {l : List γ} {l' : List δ}
    {a : α} {b b' : β} (keep : ∀ c d, Q c d → ∀ a b, R a b → Alike E R (f a c) (g b d))
    (skip : ∀ d, p d = false → ∀ a b b', R a b → g b d = .ok b' → R a b')
    (hl : List.Forall₂ Q l (l'.filter p)) (h : R a b) (hok : l'.foldlM g b = .ok b') :
    ∃ a', l.foldlM f a = .ok a' ∧ R a' b' := by
  induction l' generalizing l a b with
  | nil =>
    cases hl
    obtain rfl : b = b' := by simpa [pure, Except.pure] using hok
    exact ⟨a, rfl, h⟩
  | cons d l' ih =>
    rw [List.foldlM_cons] at hok
    obtain ⟨middle, hstep, hrest⟩ := bind_eq_ok.mp hok
    cases hp : p d with
    | false =>
      rw [List.filter_cons_of_neg (by simp [hp])] at hl
      exact ih hl (skip d hp a b middle h hstep) hrest
    | true =>
      rw [List.filter_cons_of_pos hp] at hl
      cases hl with
      | @cons c _ l _ hcd hl =>
        have halike := keep c d hcd a b h
        rw [hstep] at halike
        generalize hinner : f a c = inner at halike
        cases halike with
        | @ok first _ hfirst =>
          obtain ⟨a', ha', hR⟩ := ih hl hfirst hrest
          refine ⟨a', ?_, hR⟩
          rw [List.foldlM_cons]
          exact bind_eq_ok.mpr ⟨first, hinner, ha'⟩

end Constituency
