import LatticeSurgery.Proofs.Packing.Stowing

/-!
# What counts as in stock

The flag of a magic state is set when stock is taken and the magic state is ready, and when a refill of
its factory starts; it is cleared when a rotation consumes the magic state. Nothing else touches it, and
the factory to which a magic state belongs never changes.
-/

namespace LatticeSurgery

open Ordered Board

namespace Factories

variable {f f' : Factories} {b b' : Board} {n m : Node} {l : List Node} {ps : List Packed}
  {turnTicks ticks : Int}

/-- The number of the factory to which a magic state belongs. -/
def factoryOf? (f : Factories) (n : Node) : Option Nat := (f.states.get? n).map MagicState.factory

@[simp] theorem factoryOf?_mark (f : Factories) (inStock : Bool) (m n : Node) :
    (f.mark inStock m).factoryOf? n = f.factoryOf? n := by
  unfold factoryOf? mark
  rw [SortedMap.get?_modify]
  split
  · rw [Option.map_map]
    rfl
  · rfl

/-- Marking a magic state that belongs to a factory sets its flag. -/
theorem isInStock_mark (f : Factories) (inStock : Bool) (m n : Node) :
    (f.mark inStock m).isInStock n =
      if n = m then inStock && (f.factoryOf? n).isSome else f.isInStock n := by
  unfold isInStock mark factoryOf?
  dsimp only
  rw [SortedMap.get?_modify]
  by_cases hnm : n = m
  · rw [if_pos (same_iff.2 hnm), if_pos hnm]
    cases f.states.get? n <;> simp
  · rw [if_neg (same_iff.not.2 hnm), if_neg hnm]

theorem factoryOf?_foldl_mark (f : Factories) (inStock : Bool) (l : List Node) (n : Node) :
    (l.foldl (mark · inStock) f).factoryOf? n = f.factoryOf? n := by
  induction l generalizing f with
  | nil => rfl
  | cons m l ih => exact (ih _).trans (factoryOf?_mark _ _ _ _)

/-- Marking magic states one after the other. -/
theorem isInStock_foldl_mark (f : Factories) (l : List Node) (n : Node) :
    (l.foldl (mark · true) f).isInStock n =
      if n ∈ l then (f.factoryOf? n).isSome else f.isInStock n := by
  induction l generalizing f with
  | nil => simp
  | cons m l ih =>
    rw [List.foldl_cons, ih, factoryOf?_mark, isInStock_mark]
    by_cases hnl : n ∈ l
    · simp [hnl]
    · by_cases hnm : n = m <;> simp [hnl, hnm]

/-! ## What is done to the flags -/

/-- Taking stock flags the magic states that are ready. -/
theorem isInStock_takeStock (hb : b.Sound) (hn : (f.factoryOf? n).isSome = true)
    (hk : n.kind = .patch .magic) :
    (f.takeStock b).2.isInStock n = true ↔ f.isInStock n = true ∨ b.ticksOf n = some 0 := by
  have hready : n ∈ (b.withStatus .magic .ready).toList ↔ b.ticksOf n = some 0 :=
    hb.mem_ready.trans (and_iff_right hk)
  unfold takeStock
  dsimp only
  rw [isInStock_foldl_mark, if_congr hready hn rfl]
  by_cases hzero : b.ticksOf n = some 0 <;> simp [hzero]

theorem factoryOf?_takeStock : (f.takeStock b).2.factoryOf? n = f.factoryOf? n :=
  factoryOf?_foldl_mark f true _ n

/-- Committing rotations clears the flags of the magic states that they consume. -/
theorem flags_of_commitAll (h : commitAll turnTicks ps b f = .ok (b', f')) (n : Node) :
    (f'.isInStock n = true ↔ f.isInStock n = true ∧ ¬ Consumes ps n) ∧
      f'.factoryOf? n = f.factoryOf? n := by
  induction ps generalizing b f with
  | nil =>
    cases h
    simp [Consumes]
  | cons p ps ih =>
    obtain ⟨b₁, f₁, hone, hrest⟩ := commitAll_cons_eq_ok.1 h
    obtain ⟨hflag, hfactory⟩ := ih hrest
    obtain ⟨-, -, rfl⟩ := commit_eq_ok.1 hone
    have hspend : ((p.spend f).isInStock n = true ↔
        f.isInStock n = true ∧ p.resource ≠ some (.magicState n)) ∧
        (p.spend f).factoryOf? n = f.factoryOf? n := by
      unfold Packed.spend
      split
      · next m hm =>
        refine ⟨?_, factoryOf?_mark _ _ _ _⟩
        rw [consume, isInStock_mark, hm]
        by_cases hnm : n = m
        · simp [hnm]
        · simp [hnm, Ne.symm hnm]
      · next hnot => exact ⟨(and_iff_left (hnot n)).symm, rfl⟩
    refine ⟨?_, hfactory.trans hspend.2⟩
    rw [hflag, hspend.1]
    simp only [Consumes, List.mem_cons, exists_eq_or_imp, not_or, and_assoc, ne_eq]

/-- A refill flags the magic states to which it gives a countdown, and does nothing to the others. -/
theorem flags_of_refill {groups : List (List Node)} (hb : b.Sound)
    (h : refill ticks groups f b = .ok (f', b')) (n : Node) :
    ((f'.isInStock n = f.isInStock n ∧ b'.ticksOf n = b.ticksOf n) ∨ b'.ticksOf n = some ticks) ∧
      f'.factoryOf? n = f.factoryOf? n := by
  induction groups generalizing f b with
  | nil =>
    cases h
    exact ⟨Or.inl ⟨rfl, rfl⟩, rfl⟩
  | cons g gs ih =>
    unfold refill at h
    split at h
    · obtain ⟨b₁, hset, h⟩ := exists_of_bind_eq_ok h
      have hset := hb.setTo_of_setTicks hset
      obtain ⟨hflag, hfactory⟩ := ih hset.sound h
      refine ⟨?_, hfactory.trans (factoryOf?_foldl_mark f true g n)⟩
      rcases hflag with ⟨hflag, hticks⟩ | hrefilled
      · rw [hset.ticks] at hticks
        by_cases hn : n ∈ g
        · exact Or.inr (hticks.trans (if_pos hn))
        · refine Or.inl ⟨hflag.trans ?_, hticks.trans (if_neg hn)⟩
          rw [isInStock_foldl_mark, if_neg hn]
      · exact Or.inr hrefilled
    · exact ih hb h

/-- When a tick passes, the factories stay the same, and the flag of a magic state that is not refilled
afterwards stays what it was. -/
theorem flags_of_advance {τ : Type} {done : List τ} {log log' : Log τ} (hb : b.Sound)
    (h : f.advance done b log 1 = .ok (f', b', log')) (n : Node) :
    f'.factoryOf? n = f.factoryOf? n ∧
      (0 ≤ refillTicks f.replenishTicks → n.kind = .patch .magic →
        b'.ticksOf n = some Phase.depletedTicks →
          b.ticksOf n = some Phase.depletedTicks ∧ f'.isInStock n = f.isInStock n) := by
  have helapses := elapse_spec hb 1
  obtain ⟨ticks, f₁, hticks, hrefill, -, hf', -⟩ := exists_of_advance h
  obtain rfl := (refillCountdown_ends f.replenishTicks).of_ok hticks
  obtain ⟨hflag, hfactory⟩ := flags_of_refill helapses.sound hrefill n
  have hfactory' : f'.factoryOf? n = f₁.factoryOf? n := by rw [hf']; rfl
  have hflag' : f'.isInStock n = f₁.isInStock n := by rw [hf']; rfl
  refine ⟨hfactory'.trans hfactory, fun hrange hn hspent => ?_⟩
  rcases hflag with ⟨hflag, hticks⟩ | hrefilled
  · refine ⟨?_, hflag'.trans hflag⟩
    rw [hticks, helapses.other n (by simp [hn]), show asCountdown 1 = 1 from rfl,
      map_countdownAfter_eq_depleted hn] at hspent
    exact hspent
  · rw [hspent, Option.some_inj, Phase.depletedTicks] at hrefilled
    omega

/-! ## The factories of the magic states -/

/-- Each magic state belongs to the factory that lists it. -/
def Listed (f : Factories) : Prop :=
  ∀ n i, f.factoryOf? n = some i ↔ ∃ g, f.groups[i]? = some g ∧ n ∈ g

theorem Listed.congr (h : f.Listed) (hfactory : ∀ n, f'.factoryOf? n = f.factoryOf? n)
    (hgroups : f'.groups = f.groups) : f'.Listed := fun n i => by
  rw [hfactory, hgroups]
  exact h n i

theorem Listed.isSome_factoryOf? (h : f.Listed) (hn : n ∈ f.groups.flatten) :
    (f.factoryOf? n).isSome = true := by
  obtain ⟨g, hg, hng⟩ := List.mem_flatten.1 hn
  obtain ⟨i, hi⟩ := List.mem_iff_getElem?.1 hg
  exact Option.isSome_iff_exists.2 ⟨i, (h n i).2 ⟨g, hi, hng⟩⟩

theorem map_fst_statesOf (groups : List (List Node)) :
    (groups.zipIdx.flatMap fun g => g.1.map fun n => (n, (⟨g.2, false⟩ : MagicState))).map Prod.fst =
      groups.flatten := by
  rw [List.map_flatMap]
  simp only [List.map_map, Function.comp_def, List.map_id']
  rw [List.flatMap_def, List.zipIdx_map_fst]

/-- Factories that are set up list their magic states, and have none in stock. -/
theorem listed_of_setUp {replenishTicks perFactory : Nat}
    (h : setUp b replenishTicks perFactory = .ok (f, b')) (hnodup : f.groups.flatten.Nodup) :
    f.Listed := by
  have hstates : f.states = statesOf f.groups := by
    unfold setUp at h
    split at h
    · cases h
    · obtain ⟨t, -, h⟩ := exists_of_bind_eq_ok h
      obtain ⟨b₁, -, h⟩ := exists_of_bind_eq_ok h
      cases h
      rfl
  intro n i
  have hget : ∀ s, (statesOf f.groups).get? n = some s ↔
      s.inStock = false ∧ ∃ g, f.groups[s.factory]? = some g ∧ n ∈ g := by
    intro s
    unfold statesOf
    rw [SortedMap.get?_ofList_iff (by rwa [map_fst_statesOf])]
    simp only [List.mem_flatMap, List.mem_map, Prod.mk.injEq, Prod.exists,
      List.mem_zipIdx_iff_getElem?]
    constructor
    · rintro ⟨g, i, hi, m, hm, rfl, rfl⟩
      exact ⟨rfl, g, hi, hm⟩
    · rintro ⟨hfalse, g, hg, hn⟩
      exact ⟨g, s.factory, hg, n, hn, rfl, by cases s; simp_all⟩
  unfold factoryOf?
  rw [hstates, Option.map_eq_some_iff]
  simp only [hget]
  constructor
  · rintro ⟨s, ⟨-, hs⟩, rfl⟩
    exact hs
  · intro hg
    exact ⟨⟨i, false⟩, ⟨rfl, hg⟩, rfl⟩

/-- A magic state is as plentiful as the factory that lists it has states in stock. -/
theorem Listed.scarcity? (h : f.Listed) (hn : n.kind = .patch .magic)
    (hlisted : n ∈ f.groups.flatten) :
    ∃ g ∈ f.groups, n ∈ g ∧ f.scarcity? n = some (g.filter f.isInStock).length := by
  obtain ⟨g, hg, hng⟩ := List.mem_flatten.1 hlisted
  obtain ⟨i, hi⟩ := List.mem_iff_getElem?.1 hg
  have hfactory := (h n i).2 ⟨g, hi, hng⟩
  refine ⟨g, hg, hng, ?_⟩
  cases n with
  | bus i => cases hn
  | boundary k id basis =>
    cases hn
    obtain ⟨s, hs, rfl⟩ := Option.map_eq_some_iff.1 hfactory
    unfold Factories.scarcity?
    dsimp only
    rw [hs, Option.map_some, stockOf, List.getD_eq_getElem?_getD, hi, Option.getD_some]

end Factories

/-- Within a tick, a magic state that was ready or spent counts as in stock if it is ready, or if it was
moved into its storage in this tick, or if it was spent and counted as in stock before. -/
theorem Packer.Proceeds.isInStock_iff {q : Packer} {ps : List Packed} {b b' : Board}
    {f f' : Factories} {id : Nat} (h : q.Proceeds ps b (f.takeStock b).2 b' f') (hb : b.Sound)
    (hp : b.graph.Ported) (hknown : (f.factoryOf? (magicNode id)).isSome = true)
    (hbefore : b.ticksOf (magicNode id) = some 0 ∨
      b.ticksOf (magicNode id) = some Phase.depletedTicks) :
    f'.isInStock (magicNode id) = true ↔ b'.ticksOf (magicNode id) = some 0 ∨
      Moved b b' (magicNode id) ∨
        (b.ticksOf (magicNode id) = some Phase.depletedTicks ∧
          f.isInStock (magicNode id) = true) := by
  obtain ⟨b₀, b₁, turnTicks, -, hcommits, -⟩ := h.course
  rw [(Factories.flags_of_commitAll hcommits _).1, Factories.isInStock_takeStock hb hknown rfl]
  have hne : (some 0 : Option Int) ≠ some Phase.depletedTicks := by decide
  cases h.fate hb hp id with
  | kept hsame hconsumed hmoved =>
    rw [hsame]
    rcases hbefore with hready | hspent
    · simp [hready, hconsumed]
    · simp [hspent, hconsumed, hmoved, hne.symm]
  | consumed hready hspent hconsumed hmoved =>
    simp [hready, hspent, hconsumed, hmoved, hne, hne.symm]
  | moved hready hspent hconsumed hmoved => simp [hready, hconsumed, hmoved]

end LatticeSurgery
