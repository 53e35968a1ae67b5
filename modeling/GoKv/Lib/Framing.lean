import Mathlib.Data.List.Basic
import Mathlib.Tactic.Common

/-! Sequences of delimited items: an input read as one item after the other, and what is left of
such a sequence when it is cut. -/
namespace GoLib

variable {α β : Type*}

/-- `b` is an encoding of `a` that `parse` reads off whatever follows it. -/
def Delimits (parse : List β → Option (α × List β)) (a : α) (b : List β) : Prop :=
  ∀ x, parse (b ++ x) = some (a, x)

def joined (ps : List (α × List β)) : List β := (ps.map Prod.snd).flatten

@[simp] theorem joined_nil : joined ([] : List (α × List β)) = [] := rfl

@[simp] theorem joined_cons (p : α × List β) (ps : List (α × List β)) :
    joined (p :: ps) = p.2 ++ joined ps := rfl

@[simp] theorem joined_append (ps qs : List (α × List β)) :
    joined (ps ++ qs) = joined ps ++ joined qs := by
  simp [joined]

/-- The items an input begins with, `fuel` of them at most. -/
def splitItems (parse : List β → Option (α × List β)) : ℕ → List β → List (α × List β)
  | 0, _ => []
  | fuel + 1, b =>
    match parse b with
    | none => []
    | some (a, x) => (a, b.take (b.length - x.length)) :: splitItems parse fuel x

/-- The items that end within the first `n` places. -/
def within : ℕ → List (α × List β) → List (α × List β)
  | _, [] => []
  | n, p :: ps => if p.2.length ≤ n then p :: within (n - p.2.length) ps else []

theorem splitItems_joined {parse : List β → Option (α × List β)} {ps : List (α × List β)}
    (hps : ∀ p ∈ ps, Delimits parse p.1 p.2) {t : List β} (ht : parse t = none) {fuel : ℕ}
    (hfuel : ps.length ≤ fuel) : splitItems parse fuel (joined ps ++ t) = ps := by
  induction ps generalizing fuel with
  | nil =>
    cases fuel with
    | zero => rfl
    | succ k => simp [splitItems, ht]
  | cons p ps ih =>
    obtain ⟨hp, hps⟩ := List.forall_mem_cons.mp hps
    obtain ⟨k, rfl⟩ : ∃ k, fuel = k + 1 := ⟨fuel - 1, by rw [List.length_cons] at hfuel; omega⟩
    have hk : ps.length ≤ k := Nat.le_of_succ_le_succ hfuel
    rw [joined_cons, List.append_assoc, splitItems, hp]
    dsimp only
    rw [ih hps hk, List.length_append, Nat.add_sub_cancel, List.take_left]

theorem prefix_of_within (n : ℕ) (ps : List (α × List β)) : within n ps <+: ps := by
  induction ps generalizing n with
  | nil => exact List.nil_prefix
  | cons p ps ih =>
    rw [within]
    split_ifs
    · exact List.cons_prefix_cons.mpr ⟨rfl, ih _⟩
    · exact List.nil_prefix

/-- A cut leaves the items that end before it, and of the next one at most a part. -/
theorem take_joined (n : ℕ) (ps : List (α × List β)) :
    ∃ t, (joined ps).take n = joined (within n ps) ++ t ∧
      (t = [] ∨ ∃ p ∈ ps, t <+: p.2 ∧ t.length < p.2.length) := by
  induction ps generalizing n with
  | nil => exact ⟨[], by simp [within], .inl rfl⟩
  | cons p ps ih =>
    rw [within]
    split_ifs with hle
    · obtain ⟨t, ht, hcut⟩ := ih (n - p.2.length)
      refine ⟨t, ?_, hcut.imp_right fun ⟨q, hq, h⟩ => ⟨q, List.mem_cons_of_mem _ hq, h⟩⟩
      rw [joined_cons, joined_cons, List.take_append, List.take_of_length_le hle, ht,
        List.append_assoc]
    · have hlt : n < p.2.length := Nat.lt_of_not_le hle
      refine ⟨p.2.take n, ?_, .inr ⟨p, List.mem_cons_self, List.take_prefix _ _, ?_⟩⟩
      · rw [joined_cons, List.take_append_of_le_length (Nat.le_of_lt hlt)]
        rfl
      · rw [List.length_take]
        omega

end GoLib
