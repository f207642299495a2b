import LatticeSurgery.Proofs.Board.Sound

/-!
# Occupying nodes

Packing a tick takes open nodes and leaves everything else alone: the graph does not change, closed
nodes keep their countdowns, and a magic state is left alone or spent (`Board.Occupies`). Occupying
is transitive, so what each operation does to a board adds up.
-/

namespace LatticeSurgery

open Ordered

namespace Board

variable {b b' b'' : Board} {n : Node} {ns : List Node} {t : Int}

/-- A sound board with the same graph on which some more nodes are taken. -/
structure Occupies (b b' : Board) : Prop where
  /-- The new board is sound. -/
  sound : b'.Sound
  /-- The graph is the same. -/
  graph : b'.graph = b.graph
  /-- What was closed keeps its countdown. -/
  closed : ∀ n ∈ b.unavailable, b'.ticksOf n = b.ticksOf n
  /-- A magic state keeps its countdown or was ready and is spent. -/
  magic : ∀ n, n.kind = .patch .magic → b'.ticksOf n = b.ticksOf n ∨
    (b.ticksOf n = some 0 ∧ b'.ticksOf n = some Phase.depletedTicks)

/-- The data patches have the countdowns that they had before. -/
def SparesData (b b' : Board) : Prop :=
  ∀ id basis, b'.ticksOf (.qubit id basis) = b.ticksOf (.qubit id basis)

theorem SparesData.trans (h : b.SparesData b') (h' : b'.SparesData b'') : b.SparesData b'' :=
  fun id basis => (h' id basis).trans (h id basis)

theorem Occupies.refl (hb : b.Sound) : b.Occupies b :=
  ⟨hb, rfl, fun _ _ => rfl, fun _ _ => Or.inl rfl⟩

/-- What is closed stays closed. -/
theorem Occupies.mem_unavailable (hb : b.Sound) (h : b.Occupies b') (hn : n ∈ b.unavailable) :
    n ∈ b'.unavailable := by
  obtain ⟨t, ht, hclosed⟩ := hb.mem_unavailable.1 hn
  exact h.sound.mem_unavailable.2 ⟨t, (h.closed n hn).trans ht, hclosed⟩

theorem Occupies.trans (hb : b.Sound) (h : b.Occupies b') (h' : b'.Occupies b'') :
    b.Occupies b'' := by
  refine ⟨h'.sound, h'.graph.trans h.graph, fun n hn => ?_, fun n hn => ?_⟩
  · exact (h'.closed n (h.mem_unavailable hb hn)).trans (h.closed n hn)
  · rcases h.magic n hn with hsame | ⟨hready, hspent⟩
    · rw [← hsame]
      exact h'.magic n hn
    · rcases h'.magic n hn with hsame' | ⟨hready', -⟩
      · exact Or.inr ⟨hready, hsame'.trans hspent⟩
      · rw [hspent] at hready'
        cases hready'

/-- Setting the countdowns of open nodes occupies them, and closed nodes may be given the countdown
that they have. A magic state can only be spent. -/
theorem SetTo.occupies (hb : b.Sound) (h : b.SetTo ns t b')
    (hopen : ∀ n ∈ ns, n ∉ b.unavailable ∨ b.ticksOf n = some t)
    (hmagic : ∀ n ∈ ns, n.kind = .patch .magic → t = Phase.depletedTicks) : b.Occupies b' := by
  refine ⟨h.sound, h.graph, fun n hn => ?_, fun n hkind => ?_⟩
  · rw [h.ticks]
    split
    · next hmem => rw [(hopen n hmem).resolve_left fun hnot => hnot hn]
    · rfl
  · by_cases hmem : n ∈ ns
    · rw [h.ticks, if_pos hmem]
      have ht := hmagic n hmem hkind
      rcases hopen n hmem with hopen | hsame
      · obtain ⟨t', ht'⟩ := (h.sound.timed n).2 ⟨t, by rw [h.ticks, if_pos hmem]⟩ |> fun hnode =>
          (hb.timed n).1 (h.graph ▸ hnode)
        refine Or.inr ⟨hb.ticksOf_eq_zero ?_ (hb.hasNode_of_ticksOf ht') hopen, by rw [ht]⟩
        rw [hkind]
        simp
      · exact Or.inl hsame.symm
    · rw [h.ticks, if_neg hmem]
      exact Or.inl rfl

theorem SetTo.sparesData (h : b.SetTo ns t b') (hns : ∀ n ∈ ns, n.kind ≠ .patch .qubit) :
    b.SparesData b' := by
  intro id basis
  rw [h.ticks, if_neg fun hmem => hns _ hmem rfl]

end Board

end LatticeSurgery
