import Mathlib.Tactic.Common

/-!
# Computations that leave marks

A computation on a state passes marks on its way, each seen with the state at that point, and
ends in one of four ways: it returns, throws an exception, halts for good with a fault, or runs
out of fuel. `Meets A Φ x s Q` says of `x` from `s`: if what is assumed of the environment (`A`)
holds at every mark passed, then `Φ` does too, and `Q` holds at the end.
-/

namespace Exec

inductive Outcome (σ ε α : Type) where
  | ok (a : α) (s : σ)
  | thrown (s : σ)
  | halted (why : ε) (s : σ)
  | spent (s : σ)

structure Result (σ μ ε α : Type) where
  seen : List (μ × σ)
  out : Outcome σ ε α

/-- A computation on states `σ` with marks `μ` and faults `ε`. -/
def Prog (σ μ ε α : Type) : Type := σ → Result σ μ ε α

variable {σ μ ε α β : Type}

namespace Prog

protected def pure (a : α) : Prog σ μ ε α := fun s => ⟨[], .ok a s⟩

protected def bind (x : Prog σ μ ε α) (f : α → Prog σ μ ε β) : Prog σ μ ε β := fun s =>
  match (x s).out with
  | .ok a s' => ⟨(x s).seen ++ (f a s').seen, (f a s').out⟩
  | .thrown s' => ⟨(x s).seen, .thrown s'⟩
  | .halted why s' => ⟨(x s).seen, .halted why s'⟩
  | .spent s' => ⟨(x s).seen, .spent s'⟩

instance : Monad (Prog σ μ ε) where
  pure := Prog.pure
  bind := Prog.bind

def get : Prog σ μ ε σ := fun s => ⟨[], .ok s s⟩

def modify (f : σ → σ) : Prog σ μ ε Unit := fun s => ⟨[], .ok () (f s)⟩

def mark (m : μ) : Prog σ μ ε Unit := fun s => ⟨[(m, s)], .ok () s⟩

def throw : Prog σ μ ε α := fun s => ⟨[], .thrown s⟩

def halt (why : ε) : Prog σ μ ε α := fun s => ⟨[], .halted why s⟩

/-- The end of a loop whose fuel is used up. -/
def spent : Prog σ μ ε α := fun s => ⟨[], .spent s⟩

/-- A step taken only under a condition. -/
def when (c : Prop) [Decidable c] (x : Prog σ μ ε Unit) : Prog σ μ ε Unit :=
  if c then x else Prog.pure ()

/-- Run `handler` where `x` throws. -/
def catching (x handler : Prog σ μ ε α) : Prog σ μ ε α := fun s =>
  match (x s).out with
  | .thrown s' => ⟨(x s).seen ++ (handler s').seen, (handler s').out⟩
  | o => ⟨(x s).seen, o⟩

/-- A computation that only reads its result off, or halts. -/
def lift : Except ε α → Prog σ μ ε α
  | .ok a => Prog.pure a
  | .error why => halt why

/-- Where the first part is known to return, the second goes on from there. -/
theorem bind_run {x : Prog σ μ ε α} {s s' : σ} {w : List (μ × σ)} {a : α}
    (hx : x s = ⟨w, .ok a s'⟩) (k : α → Prog σ μ ε β) :
    (x >>= k) s = ⟨w ++ (k a s').seen, (k a s').out⟩ := by
  simp only [Bind.bind, Prog.bind, hx]

theorem lift_run {e : Except ε α} {a : α} (h : e = .ok a) (s : σ) :
    (lift e : Prog σ μ ε α) s = ⟨[], .ok a s⟩ := by
  rw [h]
  rfl

end Prog

/-- What is asked of each way to end. -/
structure Post (σ ε α : Type) where
  ok : α → σ → Prop
  thrown : σ → Prop
  halted : ε → σ → Prop
  spent : σ → Prop

def Post.Holds (Q : Post σ ε α) : Outcome σ ε α → Prop
  | .ok a s => Q.ok a s
  | .thrown s => Q.thrown s
  | .halted why s => Q.halted why s
  | .spent s => Q.spent s

def Meets (A Φ : μ → σ → Prop) (x : Prog σ μ ε α) (s : σ) (Q : Post σ ε α) : Prop :=
  (∀ m ∈ (x s).seen, A m.1 m.2) → (∀ m ∈ (x s).seen, Φ m.1 m.2) ∧ Q.Holds (x s).out

namespace Meets

variable {A Φ Φ' : μ → σ → Prop} {x : Prog σ μ ε α} {f : α → Prog σ μ ε β} {s : σ}
  {Q : Post σ ε α} {R : Post σ ε β}

theorem pure {a : α} (h : Q.ok a s) : Meets A Φ (Pure.pure a) s Q :=
  fun _ => ⟨by simp [Pure.pure, Prog.pure], h⟩

/-- What the first part ensures is what the second may assume. -/
theorem bind (hx : Meets A Φ x s Q) (hok : ∀ a s', Q.ok a s' → Meets A Φ (f a) s' R)
    (hthrown : ∀ s', Q.thrown s' → R.thrown s' := by intros; first | assumption | contradiction)
    (hhalted : ∀ why s', Q.halted why s' → R.halted why s' := by
      intros; first | assumption | contradiction)
    (hspent : ∀ s', Q.spent s' → R.spent s' := by intros; first | assumption | contradiction) :
    Meets A Φ (x >>= f) s R := by
  intro hA
  simp only [Bind.bind, Prog.bind] at hA ⊢
  rcases hxo : (x s).out with ⟨a, s'⟩ | s' | ⟨why, s'⟩ | s' <;> rw [hxo] at hA <;>
    simp only at hA ⊢
  · obtain ⟨hΦ, hQ⟩ := hx fun m hm => hA m (by simp [hm])
    rw [hxo] at hQ
    obtain ⟨hΦ', hR⟩ := hok a s' hQ fun m hm => hA m (by simp [hm])
    refine ⟨fun m hm => ?_, hR⟩
    rcases List.mem_append.1 hm with hm | hm
    · exact hΦ m hm
    · exact hΦ' m hm
  · obtain ⟨hΦ, hQ⟩ := hx hA
    rw [hxo] at hQ
    exact ⟨hΦ, hthrown s' hQ⟩
  · obtain ⟨hΦ, hQ⟩ := hx hA
    rw [hxo] at hQ
    exact ⟨hΦ, hhalted why s' hQ⟩
  · obtain ⟨hΦ, hQ⟩ := hx hA
    rw [hxo] at hQ
    exact ⟨hΦ, hspent s' hQ⟩

theorem mono {S : Post σ ε α} (h : Meets A Φ x s Q) (hok : ∀ a s', Q.ok a s' → S.ok a s')
    (hthrown : ∀ s', Q.thrown s' → S.thrown s' := by intros; first | assumption | contradiction)
    (hhalted : ∀ why s', Q.halted why s' → S.halted why s' := by
      intros; first | assumption | contradiction)
    (hspent : ∀ s', Q.spent s' → S.spent s' := by intros; first | assumption | contradiction) :
    Meets A Φ x s S := by
  intro hA
  obtain ⟨hΦ, hQ⟩ := h hA
  refine ⟨hΦ, ?_⟩
  rcases hxo : (x s).out with ⟨a, s'⟩ | s' | ⟨why, s'⟩ | s' <;> rw [hxo] at hQ
  · exact hok a s' hQ
  · exact hthrown s' hQ
  · exact hhalted why s' hQ
  · exact hspent s' hQ

theorem shows (h : Meets A Φ x s Q) (hΦ : ∀ m s, Φ m s → Φ' m s) : Meets A Φ' x s Q :=
  fun hA => ⟨fun m hm => hΦ m.1 m.2 ((h hA).1 m hm), (h hA).2⟩

/-- Every computation ends in some way. -/
theorem any : Meets A (fun _ _ => True) x s
    ⟨fun _ _ => True, fun _ => True, fun _ _ => True, fun _ => True⟩ := by
  refine fun _ => ⟨fun _ _ => trivial, ?_⟩
  cases (x s).out <;> exact trivial

theorem and {S : Post σ ε α} (h : Meets A Φ x s Q) (h' : Meets A Φ' x s S) :
    Meets A (fun m s => Φ m s ∧ Φ' m s) x s
      ⟨fun a s => Q.ok a s ∧ S.ok a s, fun s => Q.thrown s ∧ S.thrown s,
        fun why s => Q.halted why s ∧ S.halted why s, fun s => Q.spent s ∧ S.spent s⟩ := by
  intro hA
  obtain ⟨hΦ, hQ⟩ := h hA
  obtain ⟨hΦ', hS⟩ := h' hA
  refine ⟨fun m hm => ⟨hΦ m hm, hΦ' m hm⟩, ?_⟩
  rcases hxo : (x s).out with ⟨a, s'⟩ | s' | ⟨why, s'⟩ | s' <;> rw [hxo] at hQ hS <;>
    exact ⟨hQ, hS⟩

/-- What can end in no other way returns. -/
theorem returns {R : α → σ → Prop} (h : Meets (fun _ _ => True) Φ x s
      ⟨R, fun _ => False, fun _ _ => False, fun _ => False⟩) :
    ∃ a s', (x s).out = .ok a s' ∧ R a s' := by
  obtain ⟨-, hend⟩ := h fun _ _ => trivial
  rcases hxo : (x s).out with ⟨a, s'⟩ | s' | ⟨why, s'⟩ | s' <;> rw [hxo] at hend
  · exact ⟨a, s', rfl, hend⟩
  all_goals exact hend.elim

theorem get_bind {f : σ → Prog σ μ ε β} (h : Meets A Φ (f s) s R) :
    Meets A Φ (Prog.get >>= f) s R :=
  h

theorem modify_bind {g : σ → σ} {f : Unit → Prog σ μ ε β} (h : Meets A Φ (f ()) (g s) R) :
    Meets A Φ (Prog.modify g >>= f) s R :=
  h

theorem modify {g : σ → σ} {Q : Post σ ε Unit} (h : Q.ok () (g s)) :
    Meets A Φ (Prog.modify g) s Q :=
  fun _ => ⟨by simp [Prog.modify], h⟩

theorem mark_bind {m : μ} {f : Unit → Prog σ μ ε β} (hm : A m s → Φ m s)
    (h : A m s → Meets A Φ (f ()) s R) : Meets A Φ (Prog.mark m >>= f) s R := by
  intro hA
  simp only [Bind.bind, Prog.bind, Prog.mark, List.singleton_append, List.mem_cons,
    forall_eq_or_imp] at hA ⊢
  obtain ⟨hΦ, hR⟩ := h hA.1 hA.2
  exact ⟨⟨hm hA.1, hΦ⟩, hR⟩

/-- The first mark of a computation may be assumed of the whole. -/
theorem assume_mark {m : μ} {f : Unit → Prog σ μ ε β}
    (h : A m s → Meets A Φ (Prog.mark m >>= f) s R) : Meets A Φ (Prog.mark m >>= f) s R :=
  fun hA => h (hA (m, s) (by simp [Bind.bind, Prog.bind, Prog.mark])) hA

theorem mark {m : μ} {Q : Post σ ε Unit} (h : A m s → Φ m s ∧ Q.ok () s) :
    Meets A Φ (Prog.mark m) s Q := by
  intro hA
  simp only [Prog.mark, List.mem_singleton, forall_eq] at hA ⊢
  exact h hA

theorem ite {c : Prop} [Decidable c] {y : Prog σ μ ε α} (ht : c → Meets A Φ x s Q)
    (hf : ¬ c → Meets A Φ y s Q) : Meets A Φ (if c then x else y) s Q := by
  split_ifs with hc
  · exact ht hc
  · exact hf hc

/-- A step taken only under a condition: what follows starts where `K` holds. -/
theorem ite_bind {c : Prop} [Decidable c] {x : Prog σ μ ε Unit} {y : Prog σ μ ε β} {K : σ → Prop}
    (ht : c → (∀ s', K s' → Meets A Φ y s' R) → Meets A Φ (x >>= fun _ => y) s R)
    (hy : ∀ s', K s' → Meets A Φ y s' R) (hf : ¬ c → K s) :
    Meets A Φ (if c then x >>= fun _ => y else y) s R :=
  ite (fun hc => ht hc hy) fun hc => hy s (hf hc)

theorem lift_bind {e : Except ε α} (hok : ∀ a, e = .ok a → Meets A Φ (f a) s R)
    (herror : ∀ why, e = .error why → R.halted why s) : Meets A Φ (Prog.lift e >>= f) s R := by
  rcases e with why | a
  · exact fun _ => ⟨by simp [Bind.bind, Prog.bind, Prog.lift, Prog.halt], herror why rfl⟩
  · exact hok a rfl

theorem throw (h : Q.thrown s) : Meets A Φ Prog.throw s Q :=
  fun _ => ⟨by simp [Prog.throw], h⟩

theorem spent (h : Q.spent s) : Meets A Φ Prog.spent s Q :=
  fun _ => ⟨by simp [Prog.spent], h⟩

theorem catching {h : Prog σ μ ε α} {S : Post σ ε α} (hx : Meets A Φ x s S)
    (hh : ∀ s', S.thrown s' → Meets A Φ h s' Q) (hok : ∀ a s', S.ok a s' → Q.ok a s')
    (hhalted : ∀ why s', S.halted why s' → Q.halted why s' := by
      intros; first | assumption | contradiction)
    (hspent : ∀ s', S.spent s' → Q.spent s' := by intros; first | assumption | contradiction) :
    Meets A Φ (Prog.catching x h) s Q := by
  intro hA
  simp only [Prog.catching] at hA ⊢
  rcases hxo : (x s).out with ⟨a, s'⟩ | s' | ⟨why, s'⟩ | s' <;> rw [hxo] at hA <;>
    simp only at hA ⊢
  · obtain ⟨hΦ, hQ⟩ := hx hA
    rw [hxo] at hQ
    exact ⟨hΦ, hok a s' hQ⟩
  · obtain ⟨hΦ, hQ⟩ := hx fun m hm => hA m (by simp [hm])
    rw [hxo] at hQ
    obtain ⟨hΦ', hR⟩ := hh s' hQ fun m hm => hA m (by simp [hm])
    refine ⟨fun m hm => ?_, hR⟩
    rcases List.mem_append.1 hm with hm | hm
    · exact hΦ m hm
    · exact hΦ' m hm
  · obtain ⟨hΦ, hQ⟩ := hx hA
    rw [hxo] at hQ
    exact ⟨hΦ, hhalted why s' hQ⟩
  · obtain ⟨hΦ, hQ⟩ := hx hA
    rw [hxo] at hQ
    exact ⟨hΦ, hspent s' hQ⟩

end Meets

/-- From a state with `I` on, the computation throws nothing, `I` holds where it returns or halts,
and `K` where it runs out of fuel. -/
def Keeps (A Φ : μ → σ → Prop) (I K : σ → Prop) (x : Prog σ μ ε α) : Prop :=
  ∀ s, I s → Meets A Φ x s ⟨fun _ => I, fun _ => False, fun _ => I, K⟩

namespace Keeps

variable {A Φ : μ → σ → Prop} {I K : σ → Prop} {x y : Prog σ μ ε α} {f : α → Prog σ μ ε β}

theorem pure (a : α) : Keeps A Φ I K (Pure.pure a : Prog σ μ ε α) := fun _ hs => Meets.pure hs

theorem bind (hx : Keeps A Φ I K x) (hf : ∀ a, Keeps A Φ I K (f a)) : Keeps A Φ I K (x >>= f) :=
  fun s hs => (hx s hs).bind fun a s' hs' => hf a s' hs'

/-- What is kept is what the rest may assume, whatever it is to show. -/
theorem bind_meets {s : σ} {R : Post σ ε β} (hx : Keeps A Φ I K x) (hs : I s)
    (hf : ∀ a s', I s' → Meets A Φ (f a) s' R) (hhalted : ∀ why s', I s' → R.halted why s')
    (hspent : ∀ s', K s' → R.spent s') : Meets A Φ (x >>= f) s R :=
  (hx s hs).bind hf (fun _ h => h.elim) hhalted hspent

theorem get_bind {f : σ → Prog σ μ ε β} (h : ∀ s, Keeps A Φ I K (f s)) :
    Keeps A Φ I K (Prog.get >>= f) :=
  fun s hs => Meets.get_bind (h s s hs)

theorem modify {g : σ → σ} (h : ∀ s, I s → I (g s)) :
    Keeps A Φ I K (Prog.modify g : Prog σ μ ε Unit) := fun s hs => Meets.modify (h s hs)

theorem mark {m : μ} (h : ∀ s, A m s → Φ m s) : Keeps A Φ I K (Prog.mark m : Prog σ μ ε Unit) :=
  fun s hs => Meets.mark fun hA => ⟨h s hA, hs⟩

theorem ite {c : Prop} [Decidable c] (ht : c → Keeps A Φ I K x) (hf : ¬ c → Keeps A Φ I K y) :
    Keeps A Φ I K (if c then x else y) :=
  fun s hs => Meets.ite (fun hc => ht hc s hs) fun hc => hf hc s hs

theorem when {c : Prop} [Decidable c] {x : Prog σ μ ε Unit} (h : c → Keeps A Φ I K x) :
    Keeps A Φ I K (Prog.when c x) :=
  ite h fun _ => pure ()

theorem lift (e : Except ε α) : Keeps A Φ I K (Prog.lift e : Prog σ μ ε α) := by
  rcases e with why | a
  · exact fun s hs _ => ⟨by simp [Prog.lift, Prog.halt], hs⟩
  · exact pure a

theorem spent (h : ∀ s, I s → K s) : Keeps A Φ I K (Prog.spent : Prog σ μ ε α) :=
  fun s hs => Meets.spent (h s hs)

end Keeps

/-- From `s` on the computation returns, and `R` holds then. -/
def Returns (x : Prog σ μ ε α) (s : σ) (R : α → σ → Prop) : Prop :=
  ∃ a s', (x s).out = .ok a s' ∧ R a s'

namespace Returns

variable {x y : Prog σ μ ε α} {f : α → Prog σ μ ε β} {s : σ} {Q R : α → σ → Prop} {S : β → σ → Prop}

theorem pure {a : α} (h : R a s) : Returns (Pure.pure a : Prog σ μ ε α) s R := ⟨a, s, rfl, h⟩

theorem bind (hx : Returns x s Q) (hf : ∀ a s', Q a s' → Returns (f a) s' S) :
    Returns (x >>= f) s S := by
  obtain ⟨a, s', hout, hQ⟩ := hx
  obtain ⟨b, s'', hout', hS⟩ := hf a s' hQ
  refine ⟨b, s'', ?_, hS⟩
  simp only [Bind.bind, Prog.bind, hout]
  exact hout'

theorem mono (hx : Returns x s Q) (h : ∀ a s', Q a s' → R a s') : Returns x s R := by
  obtain ⟨a, s', hout, hQ⟩ := hx
  exact ⟨a, s', hout, h a s' hQ⟩

theorem get_bind {f : σ → Prog σ μ ε β} (h : Returns (f s) s S) : Returns (Prog.get >>= f) s S := h

theorem modify {g : σ → σ} {R : Unit → σ → Prop} (h : R () (g s)) :
    Returns (Prog.modify g : Prog σ μ ε Unit) s R := ⟨(), g s, rfl, h⟩

theorem modify_bind {g : σ → σ} {f : Unit → Prog σ μ ε β} (h : Returns (f ()) (g s) S) :
    Returns (Prog.modify g >>= f) s S := h

theorem mark_bind {m : μ} {f : Unit → Prog σ μ ε β} (h : Returns (f ()) s S) :
    Returns (Prog.mark m >>= f) s S := h

theorem ite {c : Prop} [Decidable c] (ht : c → Returns x s R) (hf : ¬ c → Returns y s R) :
    Returns (if c then x else y) s R := by
  split_ifs with hc
  · exact ht hc
  · exact hf hc

theorem when {c : Prop} [Decidable c] {x : Prog σ μ ε Unit} {R : Unit → σ → Prop}
    (ht : c → Returns x s R) (hf : ¬ c → R () s) : Returns (Prog.when c x) s R :=
  ite ht fun hc => pure (hf hc)

theorem lift_bind {e : Except ε α} {a : α} (he : e = .ok a) (h : Returns (f a) s S) :
    Returns (Prog.lift e >>= f) s S := by
  subst he
  exact h

end Returns

end Exec
