import Mathlib
import LuaSugar.Proofs.Syntax.Vocabulary
/-!
# Allocating and overwriting

What an arena reads as after a node is added behind the others or put in
the place of another. An arena `Extends` another if it has the same nodes
and more behind them, which is all that building does. A walk does one
thing more: it gives literals other bodies, and all else that a node has,
its hollow, stays.
-/

namespace LuaSugar

namespace Arena

variable {a b : Arena}

/-- The nodes of an arena are the first of another. -/
structure Extends (a b : Arena) : Prop where
  size_le : a.size ≤ b.size
  get_eq : ∀ i : ExprId, i.index < a.size → b.get i = a.get i

theorem Extends.refl (a : Arena) : a.Extends a := ⟨le_rfl, fun _ _ => rfl⟩

theorem Extends.trans {c : Arena} (h : a.Extends b) (h' : b.Extends c) : a.Extends c :=
  ⟨h.size_le.trans h'.size_le, fun i hi =>
    (h'.get_eq i (hi.trans_le h.size_le)).trans (h.get_eq i hi)⟩

/-- Arenas in the order in which building leads from one to another. -/
instance : Preorder Arena where
  le := Extends
  le_refl := Extends.refl
  le_trans _ _ _ := Extends.trans

/-- Outside an arena every id reads as `nil`, so what reads as anything else is inside. -/
theorem inside_of_get_ne (i : ExprId) (h : a.get i ≠ .atom .nil) : i.index < a.size := by
  by_contra hi
  exact h (get_of_size_le (Nat.le_of_not_lt hi))

/-- A node that is not `nil` is still there in a larger arena. -/
theorem Extends.get_of_eq {i : ExprId} {e : Expr} (h : a.Extends b) (hi : a.get i = e)
    (he : e ≠ .atom .nil) : b.get i = e := by
  rw [h.get_eq i (inside_of_get_ne i (hi ▸ he)), hi]

/-- A larger arena keeps what a vocabulary says of the smaller one. -/
theorem Extends.keeps {V : Vocabulary} (hV : ∀ e, V.target e → e.isAssignable) (h : a.Extends b) :
    a.Keeps V b := by
  refine ⟨fun i hi => ?_, fun i hi => ?_⟩
  · rwa [h.get_eq i (inside_of_get_ne i fun hn => by simp [hn, Expr.isCall] at hi)]
  · have hassign := hV _ hi
    rwa [h.get_eq i (inside_of_get_ne i fun hn => by simp [hn, Expr.isAssignable] at hassign)]

/-- A new node gets the next id. -/
@[simp] theorem alloc_fst (a : Arena) (e : Expr) : (a.alloc e).1 = ⟨a.size⟩ := rfl

@[simp] theorem size_alloc (a : Arena) (e : Expr) : (a.alloc e).2.size = a.size + 1 :=
  Array.size_push _

theorem size_lt_alloc (a : Arena) (e : Expr) : a.size < (a.alloc e).2.size := by
  rw [size_alloc]
  omega

/-- Nodes that were there stay. -/
theorem get_alloc_of_lt {i : ExprId} (e : Expr) (hi : i.index < a.size) :
    (a.alloc e).2.get i = a.get i := by
  simp only [Arena.get, Arena.alloc, Array.getD_eq_getD_getElem?]
  rw [Array.getElem?_push_lt hi, Array.getElem?_eq_getElem hi]

/-- The new node is at its id. -/
theorem get_alloc_self (a : Arena) (e : Expr) : (a.alloc e).2.get ⟨a.size⟩ = e := by
  simp [Arena.get, Arena.alloc, Arena.size, Array.getD_eq_getD_getElem?]

/-- Either a node is as it was or it is the new one. -/
theorem get_alloc_cases (a : Arena) (e : Expr) (i : ExprId) :
    (a.alloc e).2.get i = a.get i ∨ i = ⟨a.size⟩ ∧ (a.alloc e).2.get i = e := by
  rcases Nat.lt_trichotomy i.index a.size with hi | hi | hi
  · exact .inl (get_alloc_of_lt e hi)
  · obtain rfl : i = ⟨a.size⟩ := by cases i; simpa using hi
    exact .inr ⟨rfl, get_alloc_self a e⟩
  · refine .inl ?_
    rw [get_of_size_le hi.le, get_of_size_le (by rw [size_alloc]; exact hi)]

/-- An allocation only adds. -/
theorem extends_alloc (a : Arena) (e : Expr) : a.Extends (a.alloc e).2 :=
  ⟨by rw [size_alloc]; omega, fun _ hi => get_alloc_of_lt e hi⟩

/-! ## Overwriting -/

@[simp] theorem size_set (a : Arena) (i : ExprId) (e : Expr) : (a.set i e).size = a.size :=
  Array.size_setIfInBounds

/-- What is set can be read. -/
theorem get_set_self {i : ExprId} (e : Expr) (hi : i.index < a.size) : (a.set i e).get i = e := by
  have hi : i.index < a.nodes.size := hi
  simp [Arena.get, Arena.set, Array.getD_eq_getD_getElem?, hi]

/-- What is set elsewhere is not seen. -/
theorem get_set_of_ne {i j : ExprId} (e : Expr) (h : j ≠ i) : (a.set i e).get j = a.get j := by
  have hne : i.index ≠ j.index := fun hi => h (by cases i; cases j; simpa using hi.symm)
  simp [Arena.get, Arena.set, Array.getD_eq_getD_getElem?, hne]

theorem get_set_cases (a : Arena) (i j : ExprId) (e : Expr) :
    (a.set i e).get j = a.get j ∨ j = i ∧ (a.set i e).get j = e := by
  by_cases h : j = i
  · subst h
    by_cases hj : j.index < a.size
    · exact .inr ⟨rfl, get_set_self e hj⟩
    · refine .inl ?_
      rw [get_of_size_le (Nat.le_of_not_lt hj), get_of_size_le (by simpa using hj)]
  · exact .inl (get_set_of_ne e h)

/-- Arenas that read the same are the same. -/
theorem ext_get (hsize : a.size = b.size) (hget : ∀ i, a.get i = b.get i) : a = b := by
  obtain ⟨nodes⟩ := a
  obtain ⟨nodes'⟩ := b
  refine congrArg Arena.mk (Array.ext hsize fun n h h' => ?_)
  have hn := hget ⟨n⟩
  simpa [Arena.get, Array.getD_eq_getD_getElem?, h, h'] using hn

/-- The body at an id is that of the function literal that stands there. -/
theorem body?_eq_some {i : ExprId} {body : Block} :
    a.body? i = some body ↔ ∃ func, a.get i = .atom (.func func) ∧ func.body = body := by
  unfold body?
  split
  · rename_i func hget
    simp [hget]
  · rename_i hget
    simp only [reduceCtorEq, false_iff]
    rintro ⟨func, hfunc, -⟩
    exact hget func hfunc

end Arena

/-! ## Nodes without the bodies of literals -/

/-- A node, the body of a function literal emptied. -/
def Expr.hollow : Expr → Expr
  | .atom (.func func) => .atom (.func { func with body := [] })
  | e => e

/-- Without function bodies a node has the children that it had. -/
@[simp] theorem Expr.children_hollow (e : Expr) : e.hollow.children = e.children := by
  cases e with
  | atom x => cases x <;> rfl
  | arith x => rfl

@[simp] theorem Expr.isAtom_hollow (e : Expr) : e.hollow.isAtom = e.isAtom := by
  cases e with
  | atom x => cases x <;> rfl
  | arith x => rfl

/-- What looks like a literal is one, with a body of its own. -/
theorem Expr.literal_of_hollow {e : Expr} {func : FuncBody}
    (h : e.hollow = (Expr.atom (.func func)).hollow) :
    ∃ body, e = .atom (.func { func with body }) := by
  cases e with
  | arith x => simp [Expr.hollow] at h
  | atom x =>
    cases x with
    | func func' =>
      obtain ⟨params, variadic, body⟩ := func'
      simp only [Expr.hollow, Expr.atom.injEq, Atom.func.injEq, FuncBody.mk.injEq, and_true] at h
      exact ⟨body, by rw [h.1, h.2]⟩
    | _ => simp [Expr.hollow] at h

/-- No other node looks like one that is no literal. -/
theorem Expr.eq_of_hollow {e e' : Expr} (h : e'.hollow = e.hollow)
    (he : ∀ func, e ≠ .atom (.func func)) : e' = e := by
  have hself : e.hollow = e := by
    unfold Expr.hollow
    split
    · exact absurd rfl (he _)
    · rfl
  rw [hself] at h
  unfold Expr.hollow at h
  split at h
  · exact absurd h.symm (he _)
  · exact h

/-- Where there was no function literal there is none, whatever bodies have become. -/
theorem Arena.body?_of_hollow {a b : Arena} {i : ExprId}
    (h : (b.get i).hollow = (a.get i).hollow) (ha : a.body? i = none) : b.body? i = none := by
  by_contra hb
  obtain ⟨body, hb⟩ := Option.ne_none_iff_exists'.1 hb
  obtain ⟨func, hfunc, -⟩ := body?_eq_some.1 hb
  rw [hfunc] at h
  obtain ⟨body', hget⟩ := Expr.literal_of_hollow h.symm
  simp [Arena.body?, hget] at ha

namespace Arena

variable {a b : Arena} {i x : ExprId} {func : FuncBody} {body : Block}

theorem children_of_hollow (h : (b.get i).hollow = (a.get i).hollow) :
    (b.get i).children = (a.get i).children := by
  rw [← Expr.children_hollow, h, Expr.children_hollow]

/-! ## Bodies taken out and put back -/

/-- A function literal is inside the arena. -/
theorem inside_of_body? (h : a.body? x = some body) : x.index < a.size := by
  obtain ⟨func, hfunc, -⟩ := body?_eq_some.1 h
  exact inside_of_get_ne x (by simp [hfunc])

/-- A larger arena has the same bodies. -/
theorem Extends.body? (h : a.Extends b) (hx : a.body? x = some body) : b.body? x = some body := by
  rw [Arena.body?, h.get_eq x (inside_of_body? hx)]
  exact hx

theorem body?_set_of_ne (e : Expr) (h : x ≠ i) : (a.set i e).body? x = a.body? x := by
  rw [Arena.body?, Arena.body?, get_set_of_ne e h]

/-- A literal gets another body, and nothing else changes. -/
theorem setBody_cases (a : Arena) (x : ExprId) (body : Block) :
    a.body? x = none ∧ a.setBody x body = a ∨
      ∃ func, a.get x = .atom (.func func) ∧
        a.setBody x body = a.set x (.atom (.func { func with body })) := by
  unfold setBody body?
  split
  · rename_i func hfunc
    exact .inr ⟨func, hfunc, rfl⟩
  · exact .inl ⟨rfl, rfl⟩

@[simp] theorem size_setBody (a : Arena) (x : ExprId) (body : Block) :
    (a.setBody x body).size = a.size := by
  obtain ⟨-, h⟩ | ⟨func, -, h⟩ := a.setBody_cases x body <;> simp [h]

/-- Putting a body back changes nothing of the function but its body. -/
theorem get_setBody_self (h : a.get x = .atom (.func func)) (body : Block) :
    (a.setBody x body).get x = .atom (.func { func with body }) := by
  rw [setBody, h]
  exact get_set_self _ (inside_of_get_ne x (by simp [h]))

theorem get_setBody_of_ne (body : Block) (h : i ≠ x) : (a.setBody x body).get i = a.get i := by
  obtain ⟨-, hset⟩ | ⟨func, -, hset⟩ := a.setBody_cases x body <;> rw [hset]
  exact get_set_of_ne _ h

/-- **Putting a body back** changes nothing but bodies, anywhere. -/
theorem hollow_setBody (a : Arena) (x : ExprId) (body : Block) (i : ExprId) :
    ((a.setBody x body).get i).hollow = (a.get i).hollow := by
  by_cases hi : i = x
  · subst hi
    obtain ⟨-, hset⟩ | ⟨func, hfunc, -⟩ := a.setBody_cases i body
    · rw [hset]
    · rw [get_setBody_self hfunc, hfunc]
      rfl
  · rw [get_setBody_of_ne body hi]

/-- The body that is put back is found again. -/
theorem body?_setBody_self (h : a.body? x ≠ none) : (a.setBody x body).body? x = some body := by
  obtain ⟨hnone, -⟩ | ⟨func, hfunc, -⟩ := a.setBody_cases x body
  · exact absurd hnone h
  · exact body?_eq_some.2 ⟨_, get_setBody_self hfunc body, rfl⟩

/-- Taking out the body of a literal and putting it back. -/
theorem setBody_setBody (h : a.body? x = some body) : (a.setBody x []).setBody x body = a := by
  obtain ⟨⟨params, variadic, _⟩, hfunc, rfl⟩ := body?_eq_some.1 h
  refine ext_get (by simp) fun i => ?_
  by_cases hi : i = x
  · rw [hi, get_setBody_self (get_setBody_self hfunc []), hfunc]
  · rw [get_setBody_of_ne _ hi, get_setBody_of_ne _ hi]

end Arena

end LuaSugar
