import Concolic.Proofs.Outcomes
import Concolic.Proofs.Requests
import Mathlib

/-!
# Thresholds in machine words

The targets of a switch are counted by a 64-bit word, and the keys of a jump table run
between two signed ones.  The number of keys need not fit in a word, let alone with
one more for the default.  So it is computed from a distance that does not overflow
and from successors that stay at the largest word.  A number that does not fit is then
taken for a smaller one, but only for one that no atlas of a reasonable size comes
near, since every outcome has a vertex.  So a decision is complete exactly if it is
complete in unbounded numbers.

## Main results

* `Word.toNat_next`, `Word.toNat_distance`: successors and distances of words.
* `Instruction.ways_switch`, `Instruction.ways_table`: the ways out, in words.
* `Atlas.length_outcomeIds_le`: every outcome has a vertex.
* `Atlas.outcomeCount_eq_threshold_iff`: words against unbounded numbers.
-/

namespace Concolic

theorem outcomeLimit_eq : outcomeLimit = 18446744073709551615 := rfl

/-! ## Words -/

namespace Word

/-- The word after `n`, or `n` itself if it is the largest. -/
def next (n : UInt64) : UInt64 :=
  if n + 1 = 0 then n else n + 1

/-- The distance of two signed words, as the difference of their bit patterns. -/
def distance (a b : Int64) : UInt64 :=
  if a < b then b.toUInt64 - a.toUInt64 else a.toUInt64 - b.toUInt64

theorem toNat_next (n : UInt64) : (next n).toNat = min (n.toNat + 1) outcomeLimit := by
  have hn := UInt64.toNat_lt n
  have hsum : (n + 1).toNat = (n.toNat + 1) % 18446744073709551616 := UInt64.toNat_add n 1
  have hzero : n + 1 = 0 ↔ (n + 1).toNat = 0 := UInt64.toNat_inj.symm
  rw [outcomeLimit_eq, next]
  by_cases hlast : n + 1 = 0
  · rw [if_pos hlast]
    have hwrapped := hzero.1 hlast
    omega
  · rw [if_neg hlast]
    have hfits := mt hzero.2 hlast
    omega

/-- The value of a signed word, from its bit pattern. -/
theorem toInt_eq (a : Int64) :
    a.toInt = if 2 * a.toUInt64.toNat < 18446744073709551616 then (a.toUInt64.toNat : Int)
      else (a.toUInt64.toNat : Int) - 18446744073709551616 :=
  BitVec.toInt_eq_toNat_cond a.toBitVec

/-- Bit patterns have the difference of their values, even if it is too large for a
signed word. -/
theorem toNat_sub_toUInt64 {a b : Int64} (h : a.toInt ≤ b.toInt) :
    ((b.toUInt64 - a.toUInt64).toNat : Int) = b.toInt - a.toInt := by
  have ha := UInt64.toNat_lt a.toUInt64
  have hb := UInt64.toNat_lt b.toUInt64
  have haValue := toInt_eq a
  have hbValue := toInt_eq b
  rw [UInt64.toNat_sub]
  split at haValue <;> split at hbValue <;> omega

theorem toNat_distance (a b : Int64) : (distance a b).toNat = (a.toInt - b.toInt).natAbs := by
  rw [distance]
  by_cases h : a < b
  · have hgap := toNat_sub_toUInt64 (Int.le_of_lt (Int64.lt_iff_toInt_lt.1 h))
    rw [if_pos h]
    omega
  · have hgap := toNat_sub_toUInt64 (Int.not_lt.1 (mt Int64.lt_iff_toInt_lt.2 h))
    rw [if_neg h]
    omega

/-- The ways out of a table over the keys from `low` to `high`: the last key counts as
far as it is away from the first, there is one key more, and one way out more. -/
def tableWays (low high : Int64) : UInt64 :=
  next (next (distance high low))

theorem toNat_tableWays {low high : Int64} (h : low ≤ high) :
    (tableWays low high).toNat = min ((high.toInt - low.toInt).toNat + 2) outcomeLimit := by
  have hle := Int64.le_iff_toInt_le.1 h
  rw [tableWays, toNat_next, toNat_next, toNat_distance]
  omega

end Word

/-! ## Ways out -/

namespace Instruction

/-- A switch has one way out more than its word says, if a word can say so. -/
theorem ways_switch (targets : UInt64) :
    ways (.switch targets.toNat) = .ok (some (Word.next targets).toNat) := by
  rw [ways, Word.toNat_next]

/-- A jump table has two ways out more than its last key is away from its first, if a
word can say so. -/
theorem ways_table {low high : Int64} (h : low ≤ high) :
    ways (.table low.toInt high.toInt) =
      .ok (some (Word.tableWays low high).toNat) := by
  rw [ways, if_pos (Int64.le_iff_toInt_le.1 h), Word.toNat_tableWays h]

end Instruction

/-- What tests no runtime type and has a number of ways out needs that many outcomes. -/
theorem Clause.threshold_of_ways {clause : Clause} (hfact : clause.fact.isTypeCheck = false)
    {count : Nat} (hways : clause.instruction.ways = .ok (some count)) :
    clause.threshold = .ok (some count) := by
  simp [threshold, hfact, hways, bind, Except.bind, pure, Except.pure]

namespace Atlas

variable {atlas : Atlas} {v : Nat} {clause : Clause}

/-- Every outcome has a vertex. -/
theorem length_outcomeIds_le (atlas : Atlas) (v : Nat) :
    (atlas.outcomeIds v).length ≤ atlas.size := by
  have hnodup : (atlas.outcomeIds v).Nodup := (pairwise_outcomeIds atlas v).imp Nat.ne_of_lt
  have hsubset : atlas.outcomeIds v ⊆ List.range atlas.size :=
    fun _ hs => List.mem_range.2 (lt_size_of_mem_outcomeIds hs)
  rw [← List.length_range (n := atlas.size)]
  exact hnodup.length_le_of_subset hsubset

/-- A threshold at the limit is out of reach: on an atlas of a reasonable size as many
outcomes were seen as the threshold says exactly if as many were seen as there are. -/
theorem exists_outcomeCount (hsize : atlas.size < 2 ^ 32) (hv : atlas.clause? v = some clause)
    {ways : Nat} (hthreshold : clause.threshold = .ok (some (min ways outcomeLimit))) :
    ∃ count, atlas.outcomeCount v = .ok count ∧
      (count = min ways outcomeLimit ↔ count = ways) ∧
      (atlas.isComplete v = .ok true ↔ count = ways) := by
  have hfew := length_outcomeIds_le atlas v
  have hmet : (atlas.outcomeIds v).length = min ways outcomeLimit ↔
      (atlas.outcomeIds v).length = ways := by
    rw [outcomeLimit_eq]
    omega
  have hcount : atlas.outcomeCount v = .ok (atlas.outcomeIds v).length :=
    outcomeCount_eq_ok_iff.2 ⟨lt_size_of_clause? hv, rfl⟩
  refine ⟨_, hcount, hmet, ?_⟩
  rw [isComplete_iff, ← hmet]
  constructor
  · intro hcomplete
    rcases hcomplete with ⟨other, n, hother, hn, hlength⟩
    rw [hv] at hother
    cases hother
    rw [hthreshold] at hn
    cases hn
    exact hlength
  · intro hlength
    exact ⟨clause, _, hv, hthreshold, hlength⟩

/-- **Words are large enough.**  Take a vertex of an atlas of fewer than `2 ^ 32`
vertices whose clause tests no runtime type, at a switch or at a jump table that any
words describe.  Its threshold is computed in words and may be too small for the
number of ways out.  But as many outcomes as the threshold were seen exactly if as
many were seen as there are ways out in unbounded numbers, and that is when the vertex
is complete. -/
theorem outcomeCount_eq_threshold_iff (hsize : atlas.size < 2 ^ 32)
    (hv : atlas.clause? v = some clause) (hfact : clause.fact.isTypeCheck = false) :
    (∀ targets : UInt64, clause.instruction = .switch targets.toNat →
      ∃ count required, atlas.outcomeCount v = .ok count ∧
        clause.threshold = .ok (some required) ∧
        required = (Word.next targets).toNat ∧
        (count = required ↔ count = targets.toNat + 1) ∧
        (atlas.isComplete v = .ok true ↔ count = targets.toNat + 1)) ∧
    (∀ low high : Int64, low ≤ high →
      clause.instruction = .table low.toInt high.toInt →
      ∃ count required, atlas.outcomeCount v = .ok count ∧
        clause.threshold = .ok (some required) ∧
        required = (Word.tableWays low high).toNat ∧
        (count = required ↔ (count : Int) = high.toInt - low.toInt + 2) ∧
        (atlas.isComplete v = .ok true ↔ (count : Int) = high.toInt - low.toInt + 2)) := by
  refine ⟨?_, ?_⟩
  · intro targets hswitch
    have hways := Instruction.ways_switch targets
    rw [← hswitch] at hways
    have hthreshold := Clause.threshold_of_ways hfact hways
    have hlimit := Word.toNat_next targets
    obtain ⟨count, hcount, hmet, hcomplete⟩ :=
      exists_outcomeCount hsize hv (hlimit ▸ hthreshold)
    exact ⟨count, _, hcount, hthreshold, rfl, hlimit ▸ hmet, hcomplete⟩
  · intro low high hle htable
    have hways := Instruction.ways_table hle
    rw [← htable] at hways
    have hthreshold := Clause.threshold_of_ways hfact hways
    have hlimit := Word.toNat_tableWays hle
    obtain ⟨count, hcount, hmet, hcomplete⟩ :=
      exists_outcomeCount hsize hv (hlimit ▸ hthreshold)
    have hexact : count = (high.toInt - low.toInt).toNat + 2 ↔
        (count : Int) = high.toInt - low.toInt + 2 := by
      have hvalues := Int64.le_iff_toInt_le.1 hle
      omega
    refine ⟨count, _, hcount, hthreshold, rfl, ?_, hcomplete.trans hexact⟩
    rw [hlimit, ← hexact]
    exact hmet

/-- A decision at a switch with as many targets as a word can count. -/
def crossing : Clause :=
  ⟨⟨1⟩, .switch 18446744073709551615, ⟨.decision, .equal (.var "road") (.int 1)⟩⟩

/-- A decision at a table with one key, the largest that there is. -/
def lane (key : Int) : Clause :=
  ⟨⟨2⟩, .table 9223372036854775807 9223372036854775807,
    ⟨.decision, .equal (.var "lane") (.int key)⟩⟩

/-- A decision at a table over all keys. -/
def address : Clause :=
  ⟨⟨3⟩, .table (-9223372036854775808) 9223372036854775807,
    ⟨.decision, .equal (.var "number") (.int 7)⟩⟩

/-- Two runs that took different lanes. -/
def deliveries : List Event :=
  [.run [crossing, lane 0, address], .run [crossing, lane 1, address]]

/-- Both lanes complete the table with one key.  What is seen of the other two
decisions is less than what a word can count. -/
theorem outcomeCount_eq_threshold_iff_deliveries :
    ∃ atlas, (empty {}).replay deliveries = .ok atlas ∧ atlas.size < 2 ^ 32 ∧
      (atlas.outcomeCount 0 = .ok 1 ∧ atlas.isComplete 0 ≠ .ok true ∧
        crossing.threshold = .ok (some 18446744073709551615)) ∧
      (atlas.outcomeCount 1 = .ok 2 ∧ atlas.isComplete 1 = .ok true) ∧
      (atlas.outcomeCount 2 = .ok 1 ∧ atlas.isComplete 2 ≠ .ok true ∧
        address.threshold = .ok (some 18446744073709551615)) := by
  have hvalue : ((empty {}).replay deliveries).map (fun atlas =>
      (atlas.size, atlas.clause? 0, atlas.clause? 1, atlas.clause? 2,
        atlas.outcomeCount 0, atlas.outcomeCount 1, atlas.outcomeCount 2)) =
        .ok (4, some crossing, some (lane 0), some address, .ok 1, .ok 2, .ok 1) := by
    rfl
  obtain ⟨atlas, h, hvalue⟩ := exists_of_map_eq_ok hvalue
  simp only [Prod.mk.injEq] at hvalue
  rcases hvalue with ⟨hfour, hv₀, hv₁, hv₂, hcount₀, hcount₁, hcount₂⟩
  have hsize : atlas.size < 2 ^ 32 := by
    rw [hfour]
    decide
  refine ⟨atlas, h, hsize, ⟨hcount₀, ?_⟩, ⟨hcount₁, ?_⟩, ⟨hcount₂, ?_⟩⟩
  · obtain ⟨count, required, hcount, hthreshold, hrequired, -, hcomplete⟩ :=
      (outcomeCount_eq_threshold_iff hsize hv₀ rfl).1 18446744073709551615 rfl
    rw [hcount₀] at hcount
    cases hcount
    refine ⟨mt hcomplete.1 (by decide), ?_⟩
    rw [hthreshold, hrequired, Word.toNat_next]
    rfl
  · obtain ⟨count, required, hcount, -, -, -, hcomplete⟩ :=
      (outcomeCount_eq_threshold_iff hsize hv₁ rfl).2 9223372036854775807
        9223372036854775807 (by decide) rfl
    rw [hcount₁] at hcount
    cases hcount
    exact hcomplete.2 (by decide)
  · obtain ⟨count, required, hcount, hthreshold, hrequired, -, hcomplete⟩ :=
      (outcomeCount_eq_threshold_iff hsize hv₂ rfl).2 (-9223372036854775808)
        9223372036854775807 (by decide) rfl
    rw [hcount₂] at hcount
    cases hcount
    refine ⟨mt hcomplete.1 (by decide), ?_⟩
    rw [hthreshold, hrequired, Word.toNat_tableWays (by decide)]
    rfl

end Atlas

end Concolic
