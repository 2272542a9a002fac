import CallBy.Proofs.ProperLists
import Mathlib.Data.List.Forall2

/-!
Equality looks at identities first and still compares structure.

A value is kept as an object: integers, pairs and closures have addresses, and truth values, the
empty list and primitives exist once. Two objects are compared by identity, and only then integers
by value and pairs element by element, where each element is compared in the same way and the ends
of the two lists are compared by identity again. Which parts of a value are shared is an accident of
how it was made, and it does not show.

* `Object`, `Object.value`: values with the addresses of their parts;
* `Object.equal`, `Object.equalFrom`: the comparison of values and the one along two lists;
* `Object.equal_eq_same`: on what is kept in one store the comparison is the equality of the
  language;
* `Object.hash`, `Object.hash_eq_of_equal`: equal objects have one hash;
* `equality_structural`.
-/

namespace CallBy

/-! ### The equality of the language is an equivalence -/

namespace Value

theorem same_comm (a b : Value) : a.same b = b.same a := by
  induction a generalizing b with
  | cons a r iha ihr =>
    cases b with
    | cons b s => simp only [same, iha, ihr]
    | _ => rfl
  | _ => cases b <;> simp [same, Bool.beq_comm]

theorem same_trans {a b c : Value} (hab : a.same b = true) (hbc : b.same c = true) :
    a.same c = true := by
  induction a generalizing b c with
  | cons a r iha ihr =>
    cases b with
    | cons b s =>
      cases c with
      | cons c t =>
        simp only [same, Bool.and_eq_true] at hab hbc ⊢
        exact ⟨iha hab.1 hbc.1, ihr hab.2 hbc.2⟩
      | _ => cases hbc
    | _ => cases hab
  | _ => cases b <;> cases c <;> simp_all [same]

end Value

/-! ### Objects -/

/-- **A value with the addresses of its parts.** Truth values, the empty list and primitives have
none: each of them exists once. -/
inductive Object where
  | int (addr : Nat) (n : Int)
  | bool (b : Bool)
  | empty
  | cons (addr : Nat) (first rest : Object)
  | closure (addr : Nat) (params : List String) (body : Expr) (env : Env)
  | prim (p : Prim)

namespace Object

/-- The value that the object is. The address of a closure is its identity. -/
def value : Object → Value
  | int _ n => .int n
  | bool b => .bool b
  | empty => .empty
  | cons _ a r => .cons a.value r.value
  | closure i ps b env => .closure i ps b env
  | prim p => .prim p

/-- The address of the object. -/
def addr? : Object → Option Nat
  | int i _ | cons i _ _ | closure i _ _ _ => some i
  | _ => none

/-- The object and the objects that its pairs are made of. -/
def parts : Object → List Object
  | cons i a r => cons i a r :: (a.parts ++ r.parts)
  | o => [o]

/-- The object is kept in the store: what its parts are is what the store has at their addresses. -/
def KeptIn (store : Nat → Object) (o : Object) : Prop :=
  ∀ p ∈ o.parts, ∀ i ∈ p.addr?, store i = p

/-- The two are one object. -/
def is : Object → Object → Bool
  | int i _, int j _ | cons i _ _, cons j _ _ | closure i _ _ _, closure j _ _ _ => i == j
  | bool a, bool b => a == b
  | empty, empty => true
  | prim p, prim q => p == q
  | _, _ => false

mutual

/-- **The comparison of two objects**: they are one, or integers of one value, or pairs that are
equal from there on. -/
def equal : Object → Object → Bool
  | int i m, int j n => (int i m).is (int j n) || m == n
  | cons i a r, cons j b s => (cons i a r).is (cons j b s) || (equal a b && equalFrom r s)
  | a, b => a.is b

/-- **The comparison along two lists**: as long as both go on their elements are equal, and then
their ends are one object. -/
def equalFrom : Object → Object → Bool
  | cons _ a r, cons _ b s => equal a b && equalFrom r s
  | r, s => r.is s

end

/-- The object is kept in the store, and its lists are proper. -/
structure Sound (store : Nat → Object) (o : Object) : Prop where
  kept : o.KeptIn store
  proper : o.value.Proper

section Store

variable {store : Nat → Object} {a b c : Object}

theorem mem_parts_self (o : Object) : o ∈ o.parts := by
  cases o <;> simp [parts]

theorem Sound.parts {i : Nat} {a r : Object} (h : (cons i a r).Sound store) :
    a.Sound store ∧ r.Sound store ∧ r.value.isList = true := by
  obtain ⟨hkept, hproper⟩ := h
  obtain ⟨ha, hr, hlist⟩ := Value.proper_cons hproper
  refine ⟨⟨fun p hp => hkept p ?_, ha⟩, ⟨fun p hp => hkept p ?_, hr⟩, hlist⟩
  · simp [Object.parts, hp]
  · simp [Object.parts, hp]

/-- One object is one value: what is kept at an address is the same however it is come by. -/
theorem eq_of_is (ha : a.KeptIn store) (hb : b.KeptIn store) (h : a.is b = true) : a = b := by
  have hstore : ∀ i ∈ a.addr?, i ∈ b.addr? → a = b := fun i hi hi' =>
    (ha a (mem_parts_self a) i hi).symm.trans (hb b (mem_parts_self b) i hi')
  cases a <;> cases b <;> simp_all [is, addr?]

/-! ### The comparison is the equality of the language -/

/-- **On what is kept in one store the comparison is the equality of the language**, and so is the
comparison along two lists. -/
theorem equal_eq_same (ha : a.Sound store) (hb : b.Sound store) :
    a.equal b = a.value.same b.value ∧ (a.value.isList = true → b.value.isList = true →
      a.equalFrom b = a.value.same b.value) := by
  induction a generalizing b with
  | cons i a r iha ihr =>
    cases b with
    | cons j b s =>
      obtain ⟨pa, pr, hlr⟩ := ha.parts
      obtain ⟨pb, ps, hls⟩ := hb.parts
      have helem := (iha pa pb).1
      have hrest := (ihr pr ps).2 hlr hls
      have hfrom : (cons i a r).equalFrom (cons j b s) =
          (cons i a r).value.same (cons j b s).value := by
        rw [equalFrom, value, value, Value.same, helem, hrest]
      refine ⟨?_, fun _ _ => hfrom⟩
      cases his : (cons i a r).is (cons j b s) with
      | false =>
        rw [equal, his, Bool.false_or, ← hfrom, equalFrom]
      | true =>
        rw [eq_of_is ha.kept hb.kept his, Value.same_refl, equal, is, beq_self_eq_true,
          Bool.true_or]
    | _ => exact ⟨rfl, fun _ _ => rfl⟩
  | int i m =>
    refine ⟨?_, fun hla => absurd hla Bool.false_ne_true⟩
    cases b with
    | int j n =>
      cases his : (int i m).is (int j n) with
      | false => rw [equal, his, Bool.false_or, value, value, Value.same]
      | true =>
        rw [eq_of_is ha.kept hb.kept his, Value.same_refl, equal, is, beq_self_eq_true,
          Bool.true_or]
    | _ => rfl
  | _ => cases b <;> exact ⟨rfl, fun _ _ => rfl⟩

theorem equal_self (ha : a.Sound store) : a.equal a = true := by
  rw [(equal_eq_same ha ha).1, Value.same_refl]

/-- The comparison along two lists that begin with pairs is the comparison of the pairs. -/
theorem equalFrom_eq_equal (ha : a.Sound store) (hb : b.Sound store)
    (hla : a.value.isList = true) (hlb : b.value.isList = true) : a.equalFrom b = a.equal b := by
  obtain ⟨hequal, hfrom⟩ := equal_eq_same ha hb
  rw [hequal, hfrom hla hlb]

/-! ### Lists element by element -/

/-- The elements along the rests of a pair; none for an object that is no pair. -/
def elements : Object → List Object
  | cons _ a r => a :: r.elements
  | _ => []

/-- Lists are equal if and only if their elements are, one by one. -/
theorem equalFrom_iff_forall₂ (ha : a.Sound store) (hb : b.Sound store)
    (hla : a.value.isList = true) (hlb : b.value.isList = true) :
    a.equalFrom b = true ↔ List.Forall₂ (fun x y => equal x y = true) a.elements b.elements := by
  induction a generalizing b with
  | empty =>
    cases b with
    | empty => simp [equalFrom, is, elements]
    | cons => simp [equalFrom, is, elements]
    | _ => cases hlb
  | cons i a r _ ihr =>
    cases b with
    | empty => simp [equalFrom, is, elements]
    | cons j b s =>
      obtain ⟨-, pr, hlr⟩ := ha.parts
      obtain ⟨-, ps, hls⟩ := hb.parts
      rw [equalFrom, Bool.and_eq_true, ihr pr ps hlr hls, elements, elements,
        List.forall₂_cons]
    | _ => cases hlb
  | _ => cases hla

/-- Objects are equal if and only if they are integers of one value, or lists of as many elements
that are equal one by one, or one object. -/
theorem equal_iff (ha : a.Sound store) (hb : b.Sound store) : a.equal b = true ↔
    (∃ n, a.value = .int n ∧ b.value = .int n) ∨
    (a.value.isList = true ∧ b.value.isList = true ∧
      List.Forall₂ (fun x y => equal x y = true) a.elements b.elements) ∨ a.is b = true := by
  constructor
  · intro h
    cases a with
    | int i m =>
      cases b with
      | int j n =>
        rw [(equal_eq_same ha hb).1, value, value, Value.same, beq_iff_eq] at h
        exact .inl ⟨n, by rw [value, h], rfl⟩
      | _ => exact .inr (.inr h)
    | cons i a r =>
      cases b with
      | cons j b s =>
        rw [← equalFrom_eq_equal ha hb rfl rfl, equalFrom_iff_forall₂ ha hb rfl rfl] at h
        exact .inr (.inl ⟨rfl, rfl, h⟩)
      | _ => exact .inr (.inr h)
    | _ => cases b <;> exact .inr (.inr h)
  · rintro (⟨n, hn, hn'⟩ | ⟨hla, hlb, hall⟩ | his)
    · rw [(equal_eq_same ha hb).1, hn, hn', Value.same_refl]
    · rwa [← equalFrom_eq_equal ha hb hla hlb, equalFrom_iff_forall₂ ha hb hla hlb]
    · rw [eq_of_is ha.kept hb.kept his]
      exact equal_self hb

end Store

end Object

/-! ### Hashes -/

/-- What is hashed without looking into pairs: single objects and tuples of hashes. The hash of an
object may depend on its address, but not that of an integer. -/
structure Hashing where
  atom : Object → Int
  tuple : List Int → Int
  int_eq : ∀ i j n, atom (.int i n) = atom (.int j n)

namespace Object

variable (H : Hashing)

mutual

/-- **The hash of an object**: that of a pair is made of the hashes of the elements from there
on. -/
def hash : Object → Int
  | cons _ a r => H.tuple (hash a :: hashes r)
  | o => H.atom o

/-- The hashes of the elements along the rests. -/
def hashes : Object → List Int
  | cons _ a r => hash a :: hashes r
  | _ => []

end

/-- **Equal objects have one hash**, and equal lists have the same hashes along them. -/
theorem hash_eq_of_equal {store : Nat → Object} {a b : Object} (ha : a.Sound store)
    (hb : b.Sound store) : (a.equal b = true → a.hash H = b.hash H) ∧
      (a.value.isList = true → b.value.isList = true → a.equalFrom b = true →
        a.hashes H = b.hashes H) := by
  induction a generalizing b with
  | int i m =>
    refine ⟨fun h => ?_, fun hla => absurd hla Bool.false_ne_true⟩
    cases b with
    | int j n =>
      rw [(equal_eq_same ha hb).1, value, value, Value.same, beq_iff_eq] at h
      rw [h]
      exact H.int_eq i j n
    | _ => cases h
  | cons i a r iha ihr =>
    cases b with
    | cons j b s =>
      obtain ⟨pa, pr, hlr⟩ := ha.parts
      obtain ⟨pb, ps, hls⟩ := hb.parts
      have hhashes : (cons i a r).equalFrom (cons j b s) = true →
          (cons i a r).hashes H = (cons j b s).hashes H := by
        intro h
        rw [equalFrom, Bool.and_eq_true] at h
        rw [hashes, hashes, (iha pa pb).1 h.1, (ihr pr ps).2 hlr hls h.2]
      refine ⟨fun h => ?_, fun _ _ => hhashes⟩
      rw [← equalFrom_eq_equal ha hb rfl rfl] at h
      exact congrArg H.tuple (hhashes h)
    | _ => exact ⟨fun h => absurd h Bool.false_ne_true, fun _ _ h => absurd h Bool.false_ne_true⟩
  | _ =>
    cases b with
    | cons => exact ⟨fun h => absurd h Bool.false_ne_true, fun _ _ h => absurd h Bool.false_ne_true⟩
    | _ => exact ⟨fun h => by rw [eq_of_is ha.kept hb.kept h], fun _ _ _ => rfl⟩

end Object

/-- **The equality of the language is a structural equivalence**, whatever of the compared values is
shared. For objects of one store whose lists are proper:

* the comparison is reflexive, symmetric and transitive;
* two objects are equal if and only if they are integers of one value, or lists of as many elements
  that are equal one by one, or one object;
* the comparison along two lists that begin with pairs gives the answer of the comparison;
* equal lists have one hash, for every hashing of single objects and of tuples;
* the operators `=` and `!=` give the answer of the comparison, on the values. -/
theorem equality_structural {store : Nat → Object} {a b c : Object} (ha : a.Sound store)
    (hb : b.Sound store) (hc : c.Sound store) :
    (a.equal a = true ∧ (a.equal b = true → b.equal a = true) ∧
      (a.equal b = true → b.equal c = true → a.equal c = true)) ∧
    (a.equal b = true ↔ (∃ n, a.value = .int n ∧ b.value = .int n) ∨
      (a.value.isList = true ∧ b.value.isList = true ∧
        List.Forall₂ (fun x y => x.equal y = true) a.elements b.elements) ∨ a.is b = true) ∧
    (a.value.isList = true → b.value.isList = true → a.equalFrom b = a.equal b) ∧
    (∀ H : Hashing, a.equal b = true → a.hash H = b.hash H) ∧
    applyBinary "=" a.value b.value = .ok (.bool (a.equal b)) ∧
    applyBinary "!=" a.value b.value = .ok (.bool (!a.equal b)) := by
  have hab := (Object.equal_eq_same ha hb).1
  have hba := (Object.equal_eq_same hb ha).1
  have hbc := (Object.equal_eq_same hb hc).1
  have hac := (Object.equal_eq_same ha hc).1
  refine ⟨⟨Object.equal_self ha, fun h => ?_, fun h h' => ?_⟩, Object.equal_iff ha hb,
    Object.equalFrom_eq_equal ha hb, fun H => (Object.hash_eq_of_equal H ha hb).1, ?_, ?_⟩
  · rwa [hba, Value.same_comm, ← hab]
  · rw [hac]
    exact Value.same_trans (hab ▸ h) (hbc ▸ h')
  · rw [hab]
    rfl
  · rw [hab]
    rfl

/-- The list `((7) 7)` with both its parts at one address. -/
def Object.shared : Object :=
  let sevens := cons 1 (int 0 7) empty
  cons 2 sevens sevens

/-- The list `((7) 7)` with nothing in common but the integer, which is not the one of the other. -/
def Object.unshared : Object := cons 6 (cons 4 (int 3 7) empty) (cons 5 (int 3 7) empty)

/-- A hashing by values and addresses. -/
def Hashing.polynomial : Hashing where
  atom
    | .int _ n => n
    | .closure i _ _ _ => i
    | _ => 1
  tuple hs := hs.foldl (31 * · + ·) 7
  int_eq _ _ _ := rfl

/-- The two lists are equal either way, element by element, and have one hash, which is not that of
their first element. -/
theorem equality_structural_shared : ∃ store : Nat → Object,
    (Object.shared.Sound store ∧ Object.unshared.Sound store) ∧
    Object.shared.is .unshared = false ∧ Object.shared.equal .unshared = true ∧
    Object.unshared.equal .shared = true ∧
    Object.shared.hash .polynomial = Object.unshared.hash .polynomial ∧
    Object.shared.hash .polynomial ≠ (Object.cons 1 (.int 0 7) .empty).hash .polynomial := by
  let store : Nat → Object
    | 0 => .int 0 7
    | 1 => .cons 1 (.int 0 7) .empty
    | 2 => .shared
    | 3 => .int 3 7
    | 4 => .cons 4 (.int 3 7) .empty
    | 5 => .cons 5 (.int 3 7) .empty
    | _ => .unshared
  have hs : Object.shared.Sound store :=
    ⟨by simp [Object.KeptIn, Object.shared, Object.parts, Object.addr?, store], by decide⟩
  have hu : Object.unshared.Sound store :=
    ⟨by simp [Object.KeptIn, Object.unshared, Object.parts, Object.addr?, store], by decide⟩
  have hequal : Object.shared.equal .unshared = true := by decide
  obtain ⟨⟨-, hsymm, -⟩, -, -, hhash, -⟩ := equality_structural hs hu hs
  exact ⟨store, ⟨hs, hu⟩, by decide, hequal, hsymm hequal, hhash _ hequal, by decide⟩

end CallBy
