import Mathlib

/-!
# Computations that succeed

What is known when a computation that may fail has succeeded: each of its parts has. The laws are stated as
equivalences, so that they serve in both directions.
-/

namespace RegisterCompiler.Success

open List

variable {ε ε' α β : Type} {x : Except ε α} {c : Prop} {a : α} {f k : α → Except ε β} {b : β} {e : ε}

theorem bind_eq_ok :
    (x >>= f) = .ok b ↔ ∃ a, x = .ok a ∧ f a = .ok b := by
  cases x with
  | error e => exact ⟨nofun, nofun⟩
  | ok a => exact ⟨fun h => ⟨a, rfl, h⟩, fun ⟨_, ha, hb⟩ => by cases ha; exact hb⟩

theorem run_bind_eq_ok {σ : Type} {s s'' : σ} {x : StateT σ (Except ε) α} {k : α → StateT σ (Except ε) β} :
    (x >>= k).run s = .ok (b, s'') ↔ ∃ a s', x.run s = .ok (a, s') ∧ (k a).run s' = .ok (b, s'') := by
  rw [StateT.run_bind, bind_eq_ok]
  exact Prod.exists

theorem pure_eq_ok {a b : α} : (pure a : Except ε α) = .ok b ↔ a = b :=
  ⟨fun h => Except.ok.inj h, fun h => congrArg Except.ok h⟩

theorem map_eq_ok {f : α → β} : f <$> x = .ok b ↔ ∃ a, x = .ok a ∧ f a = b := by
  cases x with
  | error e => exact ⟨nofun, nofun⟩
  | ok a => exact ⟨fun h => ⟨a, rfl, Except.ok.inj h⟩, fun ⟨_, ha, hb⟩ => by cases ha; exact congrArg _ hb⟩

theorem mapError_eq_ok {f : ε → ε'} : x.mapError f = .ok a ↔ x = .ok a := by
  cases x with
  | error e => exact ⟨nofun, nofun⟩
  | ok a => exact ⟨fun h => congrArg _ (Except.ok.inj h), fun h => congrArg _ (Except.ok.inj h)⟩

theorem bind_eq_error :
    (x >>= f) = .error e ↔ x = .error e ∨ ∃ a, x = .ok a ∧ f a = .error e := by
  cases x with
  | error e' => exact ⟨fun h => .inl (congrArg _ (Except.error.inj h)), fun h => by rcases h with ⟨⟨⟩⟩ | ⟨_, ⟨⟩, _⟩; rfl⟩
  | ok a => exact ⟨fun h => .inr ⟨a, rfl, h⟩, fun h => by rcases h with ⟨⟨⟩⟩ | ⟨_, ⟨⟩, h⟩; exact h⟩

theorem mapError_eq_error {f : ε → ε'} {e : ε'} : x.mapError f = .error e ↔ ∃ e', x = .error e' ∧ f e' = e := by
  cases x with
  | error e' => exact ⟨fun h => ⟨e', rfl, Except.error.inj h⟩, fun ⟨_, he, h⟩ => by cases he; exact congrArg _ h⟩
  | ok a => exact ⟨nofun, nofun⟩

theorem ite_throw_bind_eq_ok [Decidable c] {x : Except ε β} :
    (if c then throw e >>= k else x) = .ok b ↔ ¬c ∧ x = .ok b := by
  split
  · next hc => exact ⟨nofun, fun h => absurd hc h.1⟩
  · next hc => exact ⟨fun h => ⟨hc, h⟩, And.right⟩

theorem ite_bind_throw_eq_ok [Decidable c] {x : Except ε β} :
    (if c then x else throw e >>= k) = .ok b ↔ c ∧ x = .ok b := by
  split
  · next hc => exact ⟨fun h => ⟨hc, h⟩, And.right⟩
  · next hc => exact ⟨nofun, fun h => absurd h.1 hc⟩

theorem ite_pure_throw_eq_ok [Decidable c] {a b : α} :
    (if c then pure a else throw e : Except ε α) = .ok b ↔ c ∧ a = b := by
  split
  · next hc => exact ⟨fun h => ⟨hc, Except.ok.inj h⟩, fun h => congrArg _ h.2⟩
  · next hc => exact ⟨nofun, fun h => absurd h.1 hc⟩

theorem forM_eq_ok {f : α → Except ε Unit} {l : List α} {u : Unit} :
    l.forM f = .ok u ↔ ∀ a ∈ l, f a = .ok () := by
  induction l with
  | nil => exact ⟨fun _ _ ha => absurd ha not_mem_nil, fun _ => rfl⟩
  | cons a l ih =>
    rw [show (a :: l).forM f = (f a >>= fun _ => l.forM f) from rfl, bind_eq_ok]
    constructor
    · rintro ⟨_, ha, hl⟩ x hx
      rcases mem_cons.1 hx with rfl | hx
      · exact ha
      · exact ih.1 hl x hx
    · intro h
      exact ⟨(), h a mem_cons_self, ih.2 fun x hx => h x (mem_cons_of_mem a hx)⟩

theorem mapM_eq_ok {l : List α} {r : List β} : l.mapM f = .ok r ↔ List.Forall₂ (fun a b => f a = .ok b) l r := by
  induction l generalizing r with
  | nil =>
    rw [mapM_nil, pure_eq_ok, forall₂_nil_left_iff]
    exact eq_comm
  | cons a l ih =>
    simp only [mapM_cons, bind_eq_ok, pure_eq_ok]
    constructor
    · rintro ⟨b, hb, r', hr', rfl⟩
      exact .cons hb (ih.1 hr')
    · rintro (_ | ⟨hb, hr'⟩)
      exact ⟨_, hb, _, ih.2 hr', rfl⟩

theorem exists_mapM {l : List α} (h : ∀ a ∈ l, ∃ b, f a = .ok b) : ∃ r, l.mapM f = .ok r := by
  induction l with
  | nil => exact ⟨[], rfl⟩
  | cons a l ih =>
    obtain ⟨b, hb⟩ := h a mem_cons_self
    obtain ⟨r, hr⟩ := ih fun x hx => h x (mem_cons_of_mem a hx)
    exact ⟨b :: r, mapM_eq_ok.2 (.cons hb (mapM_eq_ok.1 hr))⟩

section

variable {r : α → β → Prop} {l : List α} {l' : List β}

theorem exists_of_mem_right (h : List.Forall₂ r l l') (hb : b ∈ l') : ∃ a ∈ l, r a b := by
  induction h with
  | nil => cases hb
  | cons hab _ ih =>
    rcases mem_cons.1 hb with rfl | hb
    · exact ⟨_, mem_cons_self, hab⟩
    · obtain ⟨a, ha, hr⟩ := ih hb
      exact ⟨a, mem_cons_of_mem _ ha, hr⟩

theorem exists_of_mem_left (h : List.Forall₂ r l l') (ha : a ∈ l) : ∃ b ∈ l', r a b :=
  exists_of_mem_right h.flip ha

theorem pairwise_of_forall₂ (h : List.Forall₂ r l l') {s : α → α → Prop} {t : β → β → Prop} (hs : l.Pairwise s)
    (ht : ∀ a₁ ∈ l, ∀ a₂ ∈ l, ∀ b₁ b₂, r a₁ b₁ → r a₂ b₂ → s a₁ a₂ → t b₁ b₂) : l'.Pairwise t := by
  induction h with
  | nil => exact .nil
  | cons hab hrest ih =>
    obtain ⟨hfirst, hs⟩ := pairwise_cons.1 hs
    refine pairwise_cons.2 ⟨fun b hb => ?_, ih hs fun a₁ h₁ a₂ h₂ =>
      ht a₁ (mem_cons_of_mem _ h₁) a₂ (mem_cons_of_mem _ h₂)⟩
    obtain ⟨a, ha, hr⟩ := exists_of_mem_right hrest hb
    exact ht _ mem_cons_self a (mem_cons_of_mem _ ha) _ _ hab hr (hfirst a ha)

end

end RegisterCompiler.Success
