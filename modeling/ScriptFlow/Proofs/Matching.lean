import ScriptFlow.Proofs.Walk
import Mathlib.Data.List.Forall2

/-! Walks through two flows whose nodes correspond. Where the flows go the same ways, both walks have
one shape and meet corresponding nodes. -/

namespace ScriptFlow

/-- The first elements that fit are related, or none fits. -/
theorem find?_of_forall₂ {α β : Type} {R : α → β → Prop} {xs : List α} {ys : List β} {p : α → Bool}
    {q : β → Bool} (h : List.Forall₂ R xs ys) (hpq : ∀ x y, R x y → p x = q y) :
    xs.find? p = none ∧ ys.find? q = none ∨
      ∃ x y, xs.find? p = some x ∧ ys.find? q = some y ∧ R x y := by
  induction h with
  | nil => exact Or.inl ⟨rfl, rfl⟩
  | @cons x y xs ys hxy _ ih =>
    rw [List.find?_cons, List.find?_cons, ← hpq x y hxy]
    cases p x with
    | true => exact Or.inr ⟨x, y, rfl, rfl, hxy⟩
    | false => exact ih

/-- The tags of the edges that a walk follows from a node. -/
def NodeKind.ways : NodeKind → List Branch
  | entry | action => [.none]
  | condition => [.whenTrue, .whenFalse]
  | loop => [.body, .none]

namespace Visit

mutual
/-- The visits have one shape and meet nodes of the same kinds, between which `S` holds. -/
inductive Matches (S : Node → Node → Prop) : Visit → Visit → Prop
  | plain {n m : Node} : n.kind = .action → m.kind = .action → S n m →
      Matches S (.plain n) (.plain m)
  | fork {n m : Node} {ts es ts' es' : List Visit} : n.kind = .condition → m.kind = .condition →
      S n m → ListMatches S ts ts' → ListMatches S es es' →
      Matches S (.fork n ts es) (.fork m ts' es')
  | loop {n m : Node} {bs bs' : List Visit} : n.kind = .loop → m.kind = .loop → S n m →
      ListMatches S bs bs' → Matches S (.loop n bs) (.loop m bs')

inductive ListMatches (S : Node → Node → Prop) : List Visit → List Visit → Prop
  | nil : ListMatches S [] []
  | cons {v w : Visit} {vs ws : List Visit} : Matches S v w → ListMatches S vs ws →
      ListMatches S (v :: vs) (w :: ws)
end

end Visit

namespace Graph

variable {S : Node → Node → Prop} {g g' : Graph}

/-- The last nodes with an id correspond, or no node has it. -/
theorem findLast?_of_forall₂ (hnodes : List.Forall₂ S g.nodes g'.nodes)
    (hid : ∀ n m, S n m → n.id = m.id) (id : String) :
    g.findLast? id = none ∧ g'.findLast? id = none ∨
      ∃ n m, g.findLast? id = some n ∧ g'.findLast? id = some m ∧ S n m :=
  find?_of_forall₂ (List.rel_reverse hnodes) fun n m hnm => by rw [hid n m hnm]

/-- The walks have one shape and meet corresponding nodes. -/
theorem walk_matches (hnodes : List.Forall₂ S g.nodes g'.nodes)
    (hS : ∀ n m, S n m → n.id = m.id ∧ n.kind = m.kind)
    (htarget : ∀ n ∈ g.nodes, ∀ b ∈ n.kind.ways, g.target? n.id b = g'.target? n.id b)
    (stop visited : List String) (start : Option String) :
    Visit.ListMatches S (g.walk stop visited start) (g'.walk stop visited start) := by
  have hfind := findLast?_of_forall₂ hnodes fun n m hnm => (hS n m hnm).1
  -- a node that is found has its like, from which the walk goes the same ways
  have hlike {id : String} {n : Node} {k : NodeKind} (hn : g.findLast? id = some n)
      (hk : n.kind = k) : ∃ m, g'.findLast? id = some m ∧ S n m ∧ m.kind = k ∧
        ∀ b ∈ k.ways, g'.target? id b = g.target? id b := by
    subst hk
    rcases hfind id with ⟨hnone, -⟩ | ⟨n', m, hn', hm, hnm⟩
    · rw [hn] at hnone
      cases hnone
    · obtain rfl := Option.some.inj (hn.symm.trans hn')
      obtain ⟨hmem, rfl⟩ := mem_of_findLast? hn
      exact ⟨m, hm, hnm, (hS n m hnm).2.symm, fun b hb => (htarget n hmem b hb).symm⟩
  fun_induction g.walk stop visited start with
  | case1 =>
    rw [walk_none]
    exact .nil
  | case2 stop visited id hstop =>
    rw [walk, if_pos hstop]
    exact .nil
  | case3 stop visited id hstop hvisited =>
    rw [walk_of_mem_visited hvisited]
    exact .nil
  | case4 stop visited id hstop hvisited hn =>
    rcases hfind id with ⟨-, hm⟩ | ⟨n, m, hn', -⟩
    · rw [walk_of_missing hm]
      exact .nil
    · rw [hn] at hn'
      cases hn'
  | case5 stop visited id hstop hvisited n hn hkind =>
    obtain ⟨m, hm, -, hkind', -⟩ := hlike hn hkind
    rw [walk_some hstop hvisited hm, hkind']
    exact .nil
  | case6 stop visited id hstop hvisited n hn hkind iht ihe =>
    obtain ⟨m, hm, hnm, hkind', hways⟩ := hlike hn hkind
    rw [walk_some hstop hvisited hm, hkind']
    dsimp only
    rw [hways .whenTrue (by decide), hways .whenFalse (by decide)]
    exact .cons (.fork hkind hkind' hnm iht ihe) .nil
  | case7 stop visited id hstop hvisited n hn hkind ihb ih =>
    obtain ⟨m, hm, hnm, hkind', hways⟩ := hlike hn hkind
    rw [walk_some hstop hvisited hm, hkind']
    dsimp only
    rw [hways .body (by decide), hways .none (by decide)]
    exact .cons (.loop hkind hkind' hnm ihb) ih
  | case8 stop visited id hstop hvisited n hn hkind ih =>
    obtain ⟨m, hm, hnm, hkind', hways⟩ := hlike hn hkind
    rw [walk_some hstop hvisited hm, hkind']
    dsimp only
    rw [hways .none (by decide)]
    exact .cons (.plain hkind hkind' hnm) ih

end Graph

end ScriptFlow
