import CallBy.Proofs.Standards

/-!
All lists of a run are proper.

A pair can have any value as its rest, and only the primitive that makes pairs asks for a list.
Since all values of a run come from primitives and constants, the rests of the pairs in them are
lists.

* `Value.Proper`: the rest of every pair in the value is a list;
* `Value.ofList_elements`: a proper list is the list of its elements;
* `run_lists_proper`: the values of a run are proper.
-/

namespace CallBy

namespace Value

/-- The value and the values that its pairs are made of. -/
def parts : Value → List Value
  | cons a r => cons a r :: (a.parts ++ r.parts)
  | v => [v]

/-- **The rest of every pair in the value is a list.** -/
def Proper (v : Value) : Prop := ∀ a r, cons a r ∈ v.parts → r.isList = true

theorem proper_cons {a r : Value} (h : (cons a r).Proper) :
    a.Proper ∧ r.Proper ∧ r.isList = true := by
  refine ⟨fun b s hb => h b s ?_, fun b s hb => h b s ?_, h a r ?_⟩
  all_goals simp_all [parts]

theorem proper_cons_iff {a r : Value} :
    (cons a r).Proper ↔ a.Proper ∧ r.Proper ∧ r.isList = true := by
  refine ⟨proper_cons, ?_⟩
  rintro ⟨ha, hr, hlist⟩ b s hmem
  rcases List.mem_cons.mp hmem with heq | hmem
  · cases heq
    exact hlist
  · rcases List.mem_append.mp hmem with hmem | hmem
    · exact ha b s hmem
    · exact hr b s hmem

instance decidableProper : DecidablePred Proper
  | .cons a r =>
    have := decidableProper a
    have := decidableProper r
    decidable_of_iff _ proper_cons_iff.symm
  | .int _ | .bool _ | .empty | .closure _ _ _ _ | .prim _ =>
    .isTrue fun _ _ hmem => nomatch List.mem_singleton.mp hmem

/-- What is in a proper value is proper. -/
theorem Proper.part {v : Value} (h : v.Proper) : ∀ l ∈ v.parts, l.Proper := by
  induction v with
  | cons a r iha ihr =>
    intro l hl
    obtain ⟨ha, hr, -⟩ := proper_cons h
    rcases List.mem_cons.mp hl with rfl | hl
    · exact h
    · rcases List.mem_append.mp hl with hl | hl
      · exact iha ha l hl
      · exact ihr hr l hl
  | _ =>
    intro l hl
    obtain rfl := List.mem_singleton.mp hl
    exact h

/-- **A proper list is the list of its elements.** -/
theorem ofList_elements {l : Value} (h : l.Proper) (hl : l.isList = true) :
    ofList l.elements = l := by
  induction l with
  | empty => rfl
  | cons a r _ ihr =>
    obtain ⟨-, hr, hlist⟩ := proper_cons h
    rw [elements, ofList, ihr hr hlist]
  | _ => cases hl

end Value

/-- The rests of pairs are lists. -/
def Standard.properLists : Standard where
  expr := fun _ => True
  proper := True
  shared := True
  children := fun _ _ => trivial

theorem Value.Meets.proper {w : Links} {v : Value} (h : v.Meets .properLists w) : v.Proper := by
  induction v with
  | cons a r iha ihr =>
    intro b s hb
    rcases List.mem_cons.mp hb with heq | hb
    · cases heq
      exact h.2.2 trivial
    · rcases List.mem_append.mp hb with hb | hb
      · exact iha h.1 b s hb
      · exact ihr h.2.1 b s hb
  | _ =>
    intro b s hb
    cases List.mem_singleton.mp hb

/-- **Only proper lists exist in a run**: the result is proper, and so are, at every moment, the
values that variables are bound to, and the values that primitives are called with. A list in a
proper value ends in the empty one, and it is the list of its elements. -/
theorem run_lists_proper (d : Discipline) (n : Nat) (e : Expr) :
    (∀ v, Eval.outcome d n e = .ok v → v.Proper) ∧
    (∀ env m, Eval.Passes d n e env m → ∀ i x v,
      m.binding i = .value x v ∨ m.binding i = .need x (.done v) → v.Proper) ∧
    (∀ p vs, Eval.Calls d n e p vs → ∀ v ∈ vs, v.Proper) ∧
    ∀ v : Value, v.Proper → ∀ l ∈ v.parts, l.isList = true →
      l.ending = .empty ∧ ∃ vs, l.toList? = some vs ∧ (Value.ofList vs).same l = true := by
  have hshared : d.strategy = .need → Standard.properLists.shared := fun _ => trivial
  refine ⟨fun v hv => ?_, fun env m hm i x v hb => ?_, fun p vs hp v hv => ?_,
    fun v hv l hl hlist => ?_⟩
  · have hrun := upheld_evalClosed hshared n (e := e) trivial
    unfold Eval.outcome at hv
    match Eval.evalClosed d n e .initial, hrun, hv with
    | .ok _ m, .ok _ _ hmeets, rfl => exact hmeets.proper
  · obtain ⟨w, hmeets⟩ := hm.meets hshared trivial
    have hcontent := hmeets.contents i
    rcases hb with hb | hb
    · rw [hb] at hcontent
      exact Value.Meets.proper (w := w) hcontent
    · rw [hb] at hcontent
      exact hcontent.2.proper
  · obtain ⟨-, w, hmeets⟩ := hp.meets hshared trivial
    exact (hmeets v hv).proper
  · have hof := Value.ofList_elements (hv.part l hl) hlist
    refine ⟨?_, l.elements, by rw [Value.toList?, if_pos hlist], ?_⟩
    · rw [← hof, Value.ending_ofList]
    · rw [hof, Value.same_refl]

/-- The pair of one and the empty list reaches the primitive that takes its first part. -/
example :
    Eval.Calls ⟨.value, false⟩ 3 (.app (.prim .first) [.app (.prim .cons) [.int 1, .null]]) .first
      [.cons (.int 1) .empty] :=
  fun _ => rfl

end CallBy
