import CallBy.Proofs.Chart
import Mathlib.Data.List.Nodup

/-!
The books of a run: names are given once, and nothing is computed twice.

* `Books R w m`: closures and shared bindings have names of their own, and a computation has given
  the names that it has counted. `R` are the bindings that are being computed;
* `Ledger S R o w m own`: the books, and what the computation `o` at work has to do with them;
* `Kept S o w w'`: what the computation `o` changes in the counts.
-/

namespace CallBy

namespace Named

namespace Chart

/-- The chart has a shared binding of this name. -/
def Charts (w : Chart) (n : Name) : Prop :=
  ∃ (i : Nat) (c : Cell), w.entries[i]? = some (some (.cell c)) ∧ c.name = n

/-- The name is that of a closure or of a shared binding. -/
def Uses (w : Chart) (n : Name) : Prop := n ∈ w.closures ∨ w.Charts n

variable {w w' : Chart}

theorem Charts.mono (h : w ≤ w') {n : Name} (hn : w.Charts n) : w'.Charts n := by
  obtain ⟨i, c, hi, hc⟩ := hn
  exact ⟨i, c, entry_mono h hi, hc⟩

theorem made_count_self (w : Chart) (o : Name) (k : Nat) : (w.count o k).made o = some k := by
  simp [count]

theorem made_count_of_ne (w : Chart) {o a : Name} (h : a ≠ o) (k : Nat) :
    (w.count o k).made a = w.made a := by
  simp [count, Function.update_of_ne h]

theorem made_count_ne_none (w : Chart) {o a : Name} (k : Nat) (h : (w.count o k).made a ≠ none) :
    a = o ∨ w.made a ≠ none := by
  by_cases ha : a = o
  · exact .inl ha
  · rw [made_count_of_ne w ha] at h
    exact .inr h

end Chart

/-- **The books**: every name is given once and counted, and the machine computes what the books say
is being computed, and has the results of what they say is finished. -/
structure Books (R : List Name) (w : Chart) (m : Machine) : Prop where
  closures : w.closures.Nodup
  cells : ∀ {i j : Nat} {c c' : Cell}, w.entries[i]? = some (some (.cell c)) →
    w.entries[j]? = some (some (.cell c')) → c.name = c'.name → i = j
  used : ∀ {o : Name} {k : Nat}, w.Uses (.event o k) → ∃ n, w.made o = some n ∧ k < n
  begun : ∀ {c : Name} {s : Nat}, w.made (.attempt c s) ≠ none → w.Charts c ∨ c ∈ R
  once : (w.finished.map (·.1.name)).Nodup
  charted : ∀ q ∈ w.finished, ∃ i : Nat, w.entries[i]? = some (some (.cell q.1))
  running : ∀ {i : Nat} {c : Cell}, w.entries[i]? = some (some (.cell c)) →
    (m.IsRunning i ↔ c.name ∈ R)
  results : ∀ {i : Nat} {c : Cell}, w.entries[i]? = some (some (.cell c)) → ∀ q ∈ w.finished,
    q.1.name = c.name → (m.binding i).result?.isSome = true

/-- The books agree with the computation at work. -/
structure Ledger (S : Name → Nat) (R : List Name) (o : Name) (w : Chart) (m : Machine) (own : Own) :
    Prop extends Books R w m where
  /-- What is pending can be attempted. -/
  pending : ∀ {i : Nat} {c : Cell}, w.entries[i]? = some (some (.cell c)) → ∀ x e env,
    m.binding i = .need x (.pending e env) → w.made (.attempt c.name (S c.name)) = none
  current : w.made o = some own.made
  /-- Whatever has made a binding that is being computed has begun. -/
  opened : ∀ {a : Name} {k : Nat}, .event a k ∈ R → w.made a ≠ none
  /-- The computation at work has made its part of them already. -/
  behind : ∀ {k : Nat}, .event o k ∈ R → k < own.made

/-- The counts of other computations are kept, and only attempts are begun. -/
structure Kept (S : Name → Nat) (o : Name) (w w' : Chart) : Prop where
  counts : ∀ {a : Name} {n : Nat}, a ≠ o → w.made a = some n → w'.made a = some n
  begun : ∀ {a : Name}, w'.made a ≠ none → w.made a ≠ none ∨ ∃ c, a = .attempt c (S c)

namespace Kept

variable {S : Name → Nat} {o : Name} {w w' w'' : Chart}

theorem of_made (h : w'.made = w.made) : Kept S o w w' :=
  ⟨fun _ ha => by rw [h, ha], fun ha => by rw [h] at ha; exact .inl ha⟩

theorem trans (h : Kept S o w w') (h' : Kept S o w' w'') : Kept S o w w'' := by
  refine ⟨fun hne ha => h'.counts hne (h.counts hne ha), fun ha => ?_⟩
  rcases h'.begun ha with ha | ha
  · exact h.begun ha
  · exact .inr ha

/-- A computation counts what it makes. -/
theorem count (h : w.made o ≠ none) {k : Nat} (hn : w'.made = (w.count o k).made) :
    Kept S o w w' := by
  refine ⟨fun hne ha => ?_, fun ha => .inl ?_⟩
  · rw [hn, Chart.made_count_of_ne w hne, ha]
  · rw [hn] at ha
    rcases Chart.made_count_ne_none w k ha with rfl | ha
    · exact h
    · exact ha

/-- An attempt is begun, carried out and left. -/
theorem attempt {c : Name} (hnew : w.made (.attempt c (S c)) = none)
    (h : Kept S (.attempt c (S c)) (w.count (.attempt c (S c)) 0) w') : Kept S o w w' := by
  refine ⟨fun {a n} _ ha => ?_, fun {a} ha => ?_⟩
  · have hne : a ≠ .attempt c (S c) := by
      rintro rfl
      rw [hnew] at ha
      cases ha
    exact h.counts hne (by rw [Chart.made_count_of_ne w hne, ha])
  · rcases h.begun ha with ha | ha
    · rcases Chart.made_count_ne_none w 0 ha with rfl | ha
      · exact .inr ⟨c, rfl⟩
      · exact .inl ha
    · exact .inr ha

end Kept

section Books

variable {R : List Name} {w : Chart} {m : Machine}

/-- What is being computed is not finished. -/
theorem Books.agrees (h : Books R w m) (S : Name → Nat) : w.Agrees S ⟨S, R⟩ := by
  intro q hq
  refine ⟨rfl, fun hR => ?_⟩
  obtain ⟨i, hi⟩ := h.charted q hq
  obtain ⟨x, e, env, hrun⟩ := (h.running hi).mpr hR
  have hres := h.results hi q hq rfl
  rw [hrun] at hres
  cases hres

/-- An attempt has failed, and its binding is pending again. -/
theorem Books.reset {c : Cell} (h : Books (c.name :: R) w m) (hR : c.name ∉ R) {i : Nat}
    (hi : w.entries[i]? = some (some (.cell c))) (hlt : i < m.bindings.size) {x : String} {e : Expr}
    {env : Env} : Books R w (m.setBinding i (.need x (.pending e env))) := by
  have hself := Machine.binding_setBinding_self m (.need x (.pending e env)) hlt
  refine ⟨h.closures, h.cells, h.used, fun hbegun => ?_, h.once, h.charted, fun {j c'} hj => ?_,
    fun {j c'} hj q hq hname => ?_⟩
  · rcases h.begun hbegun with hch | hmem
    · exact .inl hch
    · rcases List.mem_cons.mp hmem with rfl | hmem
      · exact .inl ⟨i, c, hi, rfl⟩
      · exact .inr hmem
  · by_cases hij : i = j
    · subst hij
      rw [hi] at hj
      cases hj
      refine ⟨?_, fun hmem => absurd hmem hR⟩
      rintro ⟨y, e', env', hrun⟩
      rw [hself] at hrun
      cases hrun
    · have hne : c'.name ≠ c.name := fun heq => hij (h.cells hi hj heq.symm)
      unfold Machine.IsRunning
      rw [Machine.binding_setBinding_of_ne m _ hij]
      refine (h.running hj).trans ⟨fun hmem => ?_, List.mem_cons_of_mem _⟩
      exact (List.mem_cons.mp hmem).resolve_left hne
  · by_cases hij : i = j
    · -- what was running is not finished
      subst hij
      rw [hi] at hj
      cases hj
      exact absurd (hname ▸ List.mem_cons_self) (h.agrees (fun _ => 0) q hq).2
    · rw [Machine.binding_setBinding_of_ne m _ hij]
      exact h.results hj q hq hname

end Books

namespace Ledger

variable {S : Name → Nat} {R : List Name} {o : Name} {w : Chart} {m : Machine} {own : Own}

theorem agrees (h : Ledger S R o w m own) : w.Agrees S ⟨S, R⟩ := h.toBooks.agrees S

/-- The next name is new. -/
theorem not_uses (h : Ledger S R o w m own) : ¬ w.Uses (.event o own.made) := by
  intro huse
  obtain ⟨n, hn, hlt⟩ := h.used huse
  rw [h.current] at hn
  cases hn
  omega

theorem made_ne_none (h : Ledger S R o w m own) : w.made o ≠ none := by
  rw [h.current]
  exact nofun

theorem not_mem_next (h : Ledger S R o w m own) : .event o own.made ∉ R := by
  intro hR
  have hlt := h.behind hR
  omega

/-- No attempt at a binding of the next name has begun. -/
theorem made_attempt_next (h : Ledger S R o w m own) (s : Nat) :
    w.made (.attempt (.event o own.made) s) = none := by
  by_contra hne
  rcases h.begun hne with hch | hR
  · exact h.not_uses (.inr hch)
  · exact h.not_mem_next hR

/-- Nothing is named. -/
theorem same (h : Ledger S R o w m own) {w' : Chart} {m' : Machine} {own' : Own} (hle : w ≤ w')
    (hcells : ∀ {i : Nat} {c : Cell}, w'.entries[i]? = some (some (.cell c)) →
      w.entries[i]? = some (some (.cell c)) ∧ m'.binding i = m.binding i)
    (hcl : w'.closures = w.closures) (hfin : w'.finished = w.finished) (hn : w'.made = w.made)
    (hmade : own'.made = own.made) : Ledger S R o w' m' own' := by
  have hcharts : ∀ {n : Name}, w'.Charts n → w.Charts n := by
    rintro n ⟨i, c, hi, hc⟩
    exact ⟨i, c, (hcells hi).1, hc⟩
  refine ⟨⟨?closures, ?cells, ?used, ?begun, ?once, ?charted, ?running, ?results⟩, ?pending,
    ?current, ?opened, ?behind⟩
  case closures =>
    rw [hcl]
    exact h.closures
  case cells =>
    exact fun hi hj => h.cells (hcells hi).1 (hcells hj).1
  case used =>
    intro a k huse
    rw [hn]
    refine h.used (huse.imp (fun hmem => ?_) hcharts)
    rw [hcl] at hmem
    exact hmem
  case begun =>
    intro c s hc
    rw [hn] at hc
    exact (h.begun hc).imp_left (Chart.Charts.mono hle)
  case once =>
    rw [hfin]
    exact h.once
  case charted =>
    intro q hq
    rw [hfin] at hq
    obtain ⟨i, hi⟩ := h.charted q hq
    exact ⟨i, Chart.entry_mono hle hi⟩
  case running =>
    intro i c hi
    obtain ⟨hi, hb⟩ := hcells hi
    unfold Machine.IsRunning
    rw [hb]
    exact h.running hi
  case results =>
    intro i c hi q hq hname
    obtain ⟨hi, hb⟩ := hcells hi
    rw [hfin] at hq
    rw [hb]
    exact h.results hi q hq hname
  case pending =>
    intro i c hi x e env hpend
    obtain ⟨hi, hb⟩ := hcells hi
    rw [hb] at hpend
    rw [hn]
    exact h.pending hi x e env hpend
  case current =>
    rw [hn, hmade]
    exact h.current
  case opened =>
    intro a k hR
    rw [hn]
    exact h.opened hR
  case behind =>
    intro k hR
    rw [hmade]
    exact h.behind hR

/-- The next name is given, to a closure or to a binding. -/
theorem next (h : Ledger S R o w m own) {w' : Chart} {m' : Machine} {own' : Own} (hle : w ≤ w')
    (hcells : ∀ {i : Nat} {c : Cell}, w'.entries[i]? = some (some (.cell c)) →
      (w.entries[i]? = some (some (.cell c)) ∧ m'.binding i = m.binding i) ∨
        (i = w.entries.length ∧ c.name = .event o own.made ∧ ¬ m'.IsRunning i))
    (hcl : w'.closures = w.closures ∨ w'.closures = w.closures ++ [.event o own.made])
    (hfin : w'.finished = w.finished)
    (hn : w'.made = (w.count o (own.made + 1)).made) (hmade : own'.made = own.made + 1) :
    Ledger S R o w' m' own' := by
  have hcharts : ∀ {n : Name}, w'.Charts n → w.Charts n ∨ n = .event o own.made := by
    rintro n ⟨i, c, hi, rfl⟩
    rcases hcells hi with ⟨hi, -⟩ | ⟨-, hc, -⟩
    · exact .inl ⟨i, c, hi, rfl⟩
    · exact .inr hc
  have huses : ∀ {n : Name}, w'.Uses n → w.Uses n ∨ n = .event o own.made := by
    rintro n (hmem | hch)
    · rcases hcl with hcl | hcl <;> rw [hcl] at hmem
      · exact .inl (.inl hmem)
      · rcases List.mem_append.mp hmem with hmem | hmem
        · exact .inl (.inl hmem)
        · exact .inr (List.mem_singleton.mp hmem)
    · exact (hcharts hch).imp_left .inr
  have hself : w'.made o = some (own.made + 1) := by rw [hn, Chart.made_count_self]
  have hother : ∀ {a : Name}, a ≠ o → w'.made a = w.made a := by
    intro a ha
    rw [hn, Chart.made_count_of_ne _ ha]
  have hbegun : ∀ {a : Name}, w'.made a ≠ none → w.made a ≠ none := by
    intro a ha
    by_cases hao : a = o
    · rw [hao]
      exact h.made_ne_none
    · rw [← hother hao]
      exact ha
  have hnone : ∀ {a : Name}, w.made a = none → w'.made a = none := by
    intro a ha
    by_contra hne
    exact hbegun hne ha
  refine ⟨⟨?closures, ?cells, ?used, ?begun, ?once, ?charted, ?running, ?results⟩, ?pending,
    ?current, ?opened, ?behind⟩
  case closures =>
    rcases hcl with hcl | hcl <;> rw [hcl]
    · exact h.closures
    · refine List.nodup_append.mpr ⟨h.closures, List.nodup_singleton _, ?_⟩
      rintro a ha b hb rfl
      rw [List.mem_singleton.mp hb] at ha
      exact h.not_uses (.inl ha)
  case cells =>
    intro i j c c' hi hj hname
    rcases hcells hi with ⟨hi, -⟩ | ⟨hi, hc, -⟩ <;> rcases hcells hj with ⟨hj, -⟩ | ⟨hj, hc', -⟩
    · exact h.cells hi hj hname
    · exact absurd (.inr ⟨i, c, hi, hname.trans hc'⟩) h.not_uses
    · exact absurd (.inr ⟨j, c', hj, hname.symm.trans hc⟩) h.not_uses
    · rw [hi, hj]
  case used =>
    intro a k huse
    by_cases ha : a = o
    · subst ha
      refine ⟨own.made + 1, hself, ?_⟩
      rcases huses huse with huse | heq
      · obtain ⟨n, hn, hlt⟩ := h.used huse
        rw [h.current] at hn
        cases hn
        omega
      · cases heq
        omega
    · rw [hother ha]
      rcases huses huse with huse | heq
      · exact h.used huse
      · cases heq
        exact absurd rfl ha
  case begun =>
    intro c s hc
    exact (h.begun (hbegun hc)).imp_left (Chart.Charts.mono hle)
  case once =>
    rw [hfin]
    exact h.once
  case charted =>
    intro q hq
    rw [hfin] at hq
    obtain ⟨i, hi⟩ := h.charted q hq
    exact ⟨i, Chart.entry_mono hle hi⟩
  case running =>
    intro i c hi
    rcases hcells hi with ⟨hi, hb⟩ | ⟨-, hc, hrun⟩
    · unfold Machine.IsRunning
      rw [hb]
      exact h.running hi
    · rw [hc]
      exact ⟨fun hr => absurd hr hrun, fun hR => absurd hR h.not_mem_next⟩
  case results =>
    intro i c hi q hq hname
    rw [hfin] at hq
    rcases hcells hi with ⟨hi, hb⟩ | ⟨-, hc, -⟩
    · rw [hb]
      exact h.results hi q hq hname
    · obtain ⟨j, hj⟩ := h.charted q hq
      exact absurd (.inr ⟨j, q.1, hj, hname.trans hc⟩) h.not_uses
  case pending =>
    intro i c hi x e env hpend
    rcases hcells hi with ⟨hi, hb⟩ | ⟨-, hc, -⟩
    · rw [hb] at hpend
      exact hnone (h.pending hi x e env hpend)
    · rw [hc]
      exact hnone (h.made_attempt_next _)
  case current =>
    rw [hself, hmade]
  case opened =>
    intro a k hR
    by_cases ha : a = o
    · rw [ha, hself]
      exact nofun
    · rw [hother ha]
      exact h.opened hR
  case behind =>
    intro k hR
    have hlt := h.behind hR
    omega

/-- An attempt to compute a binding begins. The binding is marked as running, unless it is not there
yet because it is computed before it is made. -/
theorem start (h : Ledger S R o w m own) {c : Name} {m' : Machine}
    (hnone : w.made (.attempt c (S c)) = none) (hc : w.Charts c ∨ c = .event o own.made)
    (hR : c ∉ R) (hfin : ∀ q ∈ w.finished, q.1.name ≠ c)
    (hcells : ∀ {i : Nat} {c' : Cell}, w.entries[i]? = some (some (.cell c')) →
      (c'.name ≠ c ∧ m'.binding i = m.binding i) ∨ (c'.name = c ∧ m'.IsRunning i)) :
    Ledger S (c :: R) (.attempt c (S c)) (w.count (.attempt c (S c)) 0) m' {} := by
  have hother : ∀ {a : Name}, w.made a ≠ none →
      (w.count (.attempt c (S c)) 0).made a = w.made a := by
    intro a ha
    refine Chart.made_count_of_ne w ?_ 0
    rintro rfl
    exact ha hnone
  -- what has made a binding on the list has begun
  have hopened : ∀ {a : Name} {k : Nat}, .event a k ∈ c :: R → w.made a ≠ none := by
    intro a k hmem
    rcases List.mem_cons.mp hmem with heq | hmem
    · rcases hc with hch | hc
      · rw [← heq] at hch
        obtain ⟨n, hn, -⟩ := h.used (.inr hch)
        rw [hn]
        exact nofun
      · rw [← heq] at hc
        cases hc
        exact h.made_ne_none
    · exact h.opened hmem
  refine ⟨⟨h.closures, h.cells, ?used, ?begun, h.once, h.charted, ?running, ?results⟩, ?pending,
    ?current, ?opened, ?behind⟩
  case used =>
    intro a k huse
    obtain ⟨n, hn, hlt⟩ := h.used huse
    refine ⟨n, ?_, hlt⟩
    rw [hother (by rw [hn]; exact nofun), hn]
  case begun =>
    intro c' s hc'
    rcases Chart.made_count_ne_none w 0 hc' with heq | hc'
    · cases heq
      exact .inr List.mem_cons_self
    · exact (h.begun hc').imp_right (List.mem_cons_of_mem _)
  case running =>
    intro i c' hi
    rcases hcells hi with ⟨hne, hb⟩ | ⟨heq, hrun⟩
    · unfold Machine.IsRunning
      rw [hb]
      refine (h.running hi).trans ⟨List.mem_cons_of_mem _, fun hmem => ?_⟩
      exact (List.mem_cons.mp hmem).resolve_left hne
    · rw [heq]
      exact ⟨fun _ => List.mem_cons_self, fun _ => hrun⟩
  case results =>
    intro i c' hi q hq hname
    rcases hcells hi with ⟨-, hb⟩ | ⟨heq, -⟩
    · rw [hb]
      exact h.results hi q hq hname
    · exact absurd (hname.trans heq) (hfin q hq)
  case pending =>
    intro i c' hi x e env hpend
    rcases hcells hi with ⟨hne, hb⟩ | ⟨-, y, e', env', hrun⟩
    · rw [hb] at hpend
      have hpend := h.pending hi x e env hpend
      rw [Chart.made_count_of_ne w ?_ 0]
      · exact hpend
      · intro heq
        cases heq
        exact hne rfl
    · rw [hrun] at hpend
      cases hpend
  case current =>
    rw [Chart.made_count_self]
  case opened =>
    intro a k hmem
    rw [hother (hopened hmem)]
    exact hopened hmem
  case behind =>
    intro k hmem
    exact absurd hnone (hopened hmem)

/-- The attempt has succeeded, and the computation that needed it goes on. -/
theorem finish (h : Ledger S R o w m own) {c : Cell} {w₁ w₂ : Chart} {m₁ m₂ : Machine}
    {own₁ own₂ : Own}
    (h₁ : Ledger S (c.name :: R) (.attempt c.name (S c.name)) w₁ m₁ own₁)
    (hkept : Kept S o w w₁) (hcurrent : w₁.made o = some own.made) (hR : c.name ∉ R)
    (hnew : ∀ q ∈ w₁.finished, q.1.name ≠ c.name) (hle : w₁ ≤ w₂)
    (hcells : ∀ {i : Nat} {c' : Cell}, w₂.entries[i]? = some (some (.cell c')) →
      (c'.name ≠ c.name ∧ w₁.entries[i]? = some (some (.cell c')) ∧ m₂.binding i = m₁.binding i) ∨
        (c'.name = c.name ∧ (m₂.binding i).result?.isSome = true))
    (hone : ∀ {i j : Nat} {c₁ c₂ : Cell}, w₂.entries[i]? = some (some (.cell c₁)) →
      w₂.entries[j]? = some (some (.cell c₂)) → c₁.name = c.name → c₂.name = c.name → i = j)
    (hc : ∃ i : Nat, w₂.entries[i]? = some (some (.cell c)))
    (hused : ∀ {a : Name} {k : Nat}, c.name = .event a k → ∃ n, w₂.made a = some n ∧ k < n)
    (hcl : w₂.closures = w₁.closures) (hfin : w₂.finished = w₁.finished ++ [(c, own₁)])
    (hother : ∀ {a : Name}, a ≠ o → w₂.made a = w₁.made a) (hmade : w₂.made o = some own₂.made)
    (hle' : own.made ≤ own₂.made) : Ledger S R o w₂ m₂ own₂ := by
  have hresult : ∀ {b : Binding}, b.result?.isSome = true →
      (∀ x e env, b ≠ .need x (.pending e env)) ∧ ∀ x e env, b ≠ .need x (.running e env) := by
    intro b hb
    refine ⟨?_, ?_⟩ <;> rintro x e env rfl <;> cases hb
  have hbegun : ∀ {a : Name}, w₂.made a ≠ none → w₁.made a ≠ none := by
    intro a ha
    by_cases hao : a = o
    · rw [hao, hcurrent]
      exact nofun
    · rw [← hother hao]
      exact ha
  refine ⟨⟨?closures, ?cells, ?used, ?begun, ?once, ?charted, ?running, ?results⟩, ?pending, hmade,
    ?opened, ?behind⟩
  case closures =>
    rw [hcl]
    exact h₁.closures
  case cells =>
    intro i j c₁ c₂ hi hj hname
    rcases hcells hi with ⟨hne, hi', -⟩ | ⟨heq, -⟩
    · rcases hcells hj with ⟨-, hj', -⟩ | ⟨heq', -⟩
      · exact h₁.cells hi' hj' hname
      · exact absurd (hname.trans heq') hne
    · exact hone hi hj heq (hname.symm.trans heq)
  case used =>
    intro a k huse
    have hold : w₁.Uses (.event a k) → ∃ n, w₂.made a = some n ∧ k < n := by
      intro huse
      obtain ⟨n, hn, hlt⟩ := h₁.used huse
      by_cases hao : a = o
      · subst hao
        rw [hcurrent] at hn
        cases hn
        exact ⟨own₂.made, hmade, by omega⟩
      · exact ⟨n, by rw [hother hao, hn], hlt⟩
    rcases huse with hmem | ⟨i, c', hi, hname⟩
    · rw [hcl] at hmem
      exact hold (.inl hmem)
    · rcases hcells hi with ⟨-, hi, -⟩ | ⟨heq, -⟩
      · exact hold (.inr ⟨i, c', hi, hname⟩)
      · exact hused (heq.symm.trans hname)
  case begun =>
    intro c' s hc'
    rcases h₁.begun (hbegun hc') with hch | hmem
    · exact .inl (hch.mono hle)
    · rcases List.mem_cons.mp hmem with rfl | hmem
      · obtain ⟨i, hi⟩ := hc
        exact .inl ⟨i, c, hi, rfl⟩
      · exact .inr hmem
  case once =>
    rw [hfin, List.map_append]
    refine List.nodup_append.mpr ⟨h₁.once, List.nodup_singleton _, ?_⟩
    rintro a ha b hb rfl
    obtain ⟨q, hq, rfl⟩ := List.mem_map.mp ha
    exact hnew q hq (List.mem_singleton.mp hb)
  case charted =>
    intro q hq
    rw [hfin] at hq
    rcases List.mem_append.mp hq with hq | hq
    · obtain ⟨i, hi⟩ := h₁.charted q hq
      exact ⟨i, Chart.entry_mono hle hi⟩
    · rw [List.mem_singleton.mp hq]
      exact hc
  case running =>
    intro i c' hi
    rcases hcells hi with ⟨hne, hi, hb⟩ | ⟨heq, hres⟩
    · unfold Machine.IsRunning
      rw [hb]
      refine (h₁.running hi).trans ⟨fun hmem => ?_, List.mem_cons_of_mem _⟩
      exact (List.mem_cons.mp hmem).resolve_left hne
    · rw [heq]
      refine ⟨?_, fun hmem => absurd hmem hR⟩
      rintro ⟨x, e, env, hrun⟩
      exact absurd hrun ((hresult hres).2 x e env)
  case results =>
    intro i c' hi q hq hname
    rcases hcells hi with ⟨hne, hi, hb⟩ | ⟨-, hres⟩
    · rw [hfin] at hq
      rcases List.mem_append.mp hq with hq | hq
      · rw [hb]
        exact h₁.results hi q hq hname
      · rw [List.mem_singleton.mp hq] at hname
        exact absurd hname.symm hne
    · exact hres
  case pending =>
    intro i c' hi x e env hpend
    rcases hcells hi with ⟨-, hi, hb⟩ | ⟨-, hres⟩
    · rw [hb] at hpend
      have hnone := h₁.pending hi x e env hpend
      by_contra hne
      exact hbegun hne hnone
    · exact absurd hpend ((hresult hres).1 x e env)
  case opened =>
    intro a k hmem
    by_cases hao : a = o
    · rw [hao, hmade]
      exact nofun
    · obtain ⟨n, hn⟩ := Option.ne_none_iff_exists'.mp (h.opened hmem)
      rw [hother hao, hkept.counts hao hn]
      exact nofun
  case behind =>
    intro k hmem
    have hlt := h.behind hmem
    omega

end Ledger

end Named

end CallBy
