import Yalnix.Lib.Ring

/-!
# Several rings in one heap

`Rings h heads f`: each node of `heads` is the head of a ring, which holds `f head`, and no node is
part of two rings.

* `Rings.congr` — a heap that agrees on the nodes of all rings has the same rings.
* `Rings.replace` — one ring may change, if the nodes of the others are left alone.
* `Rings.add`, `Rings.mono` — one more head, or fewer.
-/

set_option autoImplicit false

namespace Ring

variable {ν : Type*} {h h' : Heap ν} {heads heads' : ν → Prop} {f g : ν → List ν} {a b x : ν}
  {l : List ν}

structure Rings (h : Heap ν) (heads : ν → Prop) (f : ν → List ν) : Prop where
  ring : ∀ a, heads a → IsRing h a (f a)
  apart : ∀ a b x, heads a → heads b → x ∈ a :: f a → x ∈ b :: f b → a = b

/-- The node is part of no ring. -/
def Outside (heads : ν → Prop) (f : ν → List ν) (x : ν) : Prop := ∀ a, heads a → x ∉ a :: f a

theorem Rings.congr (hr : Rings h heads f)
    (hn : ∀ a, heads a → ∀ x ∈ a :: f a, h'.next x = h.next x)
    (hp : ∀ a, heads a → ∀ x ∈ a :: f a, h'.prev x = h.prev x) : Rings h' heads f :=
  ⟨fun a ha => (hr.ring a ha).congr (hn a ha) (hp a ha), hr.apart⟩

/-- The rings of the other heads share no node with that of `a`. -/
theorem Rings.not_mem (hr : Rings h heads f) (ha : heads a) (hb : heads b) (hne : b ≠ a)
    (hx : x ∈ b :: f b) : x ∉ a :: f a :=
  fun hm => hne (hr.apart b a x hb ha hx hm)

variable [DecidableEq ν]

/-- One ring changes, within the nodes of `l`, and the others do not. -/
theorem Rings.replace (hr : Rings h heads f) (hring : IsRing h' a l)
    (hout : ∀ x ∈ l, x ∈ f a ∨ Outside heads f x)
    (hn : ∀ b, heads b → b ≠ a → ∀ x ∈ b :: f b, h'.next x = h.next x)
    (hp : ∀ b, heads b → b ≠ a → ∀ x ∈ b :: f b, h'.prev x = h.prev x) (ha : heads a) :
    Rings h' heads (Function.update f a l) := by
  have hother : ∀ b x, heads b → b ≠ a → x ∈ b :: f b → x ∈ a :: l → False := by
    intro b x hb hne hxb hxa
    rcases List.mem_cons.mp hxa with rfl | hxl
    · exact hne (hr.apart b x x hb ha hxb List.mem_cons_self)
    · rcases hout x hxl with hx | hx
      · exact hne (hr.apart b a x hb ha hxb (List.mem_cons_of_mem _ hx))
      · exact hx b hb hxb
  constructor
  · intro b hb
    rcases eq_or_ne b a with rfl | hne
    · rw [Function.update_self]
      exact hring
    · rw [Function.update_of_ne hne]
      exact (hr.ring b hb).congr (hn b hb hne) (hp b hb hne)
  · intro b c x hb hc hxb hxc
    rcases eq_or_ne b a with rfl | hba
    · rcases eq_or_ne c b with rfl | hcb
      · rfl
      · rw [Function.update_self] at hxb
        rw [Function.update_of_ne hcb] at hxc
        exact (hother c x hc hcb hxc hxb).elim
    · rw [Function.update_of_ne hba] at hxb
      rcases eq_or_ne c a with rfl | hca
      · rw [Function.update_self] at hxc
        exact (hother b x hb hba hxb hxc).elim
      · rw [Function.update_of_ne hca] at hxc
        exact hr.apart b c x hb hc hxb hxc

omit [DecidableEq ν] in
theorem Rings.mono (hr : Rings h heads f) (hsub : ∀ a, heads' a → heads a) : Rings h heads' f :=
  ⟨fun a ha => hr.ring a (hsub a ha), fun a b x ha hb => hr.apart a b x (hsub a ha) (hsub b hb)⟩

omit [DecidableEq ν] in
theorem Rings.eq (hr : Rings h heads f) (hfg : ∀ a, heads a → g a = f a) : Rings h heads g := by
  refine ⟨fun a ha => ?_, fun a b x ha hb hxa hxb => ?_⟩
  · rw [hfg a ha]
    exact hr.ring a ha
  · rw [hfg a ha] at hxa
    rw [hfg b hb] at hxb
    exact hr.apart a b x ha hb hxa hxb

omit [DecidableEq ν] in
/-- An empty ring of a node that was part of none. -/
theorem Rings.add (hr : Rings h heads f) (hx : Outside heads f x) (hring : IsRing h x [])
    (hf : f x = []) : Rings h (fun a => heads a ∨ a = x) f := by
  constructor
  · rintro a (ha | rfl)
    · exact hr.ring a ha
    · rw [hf]
      exact hring
  · rintro a b y (ha | rfl) (hb | rfl) hya hyb
    · exact hr.apart a b y ha hb hya hyb
    · rw [hf, List.mem_singleton] at hyb
      subst hyb
      exact absurd hya (hx a ha)
    · rw [hf, List.mem_singleton] at hya
      subst hya
      exact absurd hyb (hx b hb)
    · rfl

end Ring
