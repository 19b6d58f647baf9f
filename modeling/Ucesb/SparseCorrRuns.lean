import Ucesb.SparseCorr

namespace Ucesb

structure PPCorr where
  count : Nat → BitVec 32
  corr : Nat → PCorr

section Code

variable (buckets chunk : Nat)

def PPCorr.clear : PPCorr := ⟨fun _ => 0#32, fun _ => .clear⟩

def PPCorr.addSelf (t : PPCorr) (i1 : Nat) : Option PPCorr :=
  if i1 < buckets * chunk then some { t with count := Function.update t.count i1 (t.count i1 + 1) }
  else none

/-- An operation on `_corr[i1]`. -/
def PPCorr.onRow (t : PPCorr) (i1 : Nat) (f : PCorr → Option PCorr) : Option PPCorr :=
  if i1 < buckets * chunk then
    (f (t.corr i1)).map fun p => { t with corr := Function.update t.corr i1 p }
  else none

def PPCorr.add (t : PPCorr) (i1 i2 : Nat) : Option PPCorr :=
  t.onRow buckets chunk i1 (·.add buckets chunk i2)

/-- `_corr[i1].add(i2_b,i2_o)` is the function for ranges. -/
def PPCorr.add2 (t : PPCorr) (i1 i2b i2o : Nat) : Option PPCorr :=
  t.onRow buckets chunk i1 (·.addRange buckets chunk i2b i2o)

def PPCorr.addRangeSelf (t : PPCorr) (start1 end1 : Nat) : Option PPCorr := do
  let t ← (List.range' start1 (end1 - 1 - start1)).foldlM (fun (t : PPCorr) i1 =>
    (t.addSelf buckets chunk i1).bind
      (·.onRow buckets chunk i1 (·.addRange buckets chunk (i1 + 1) end1))) t
  t.addSelf buckets chunk (end1 - 1)

def PPCorr.addRange (t : PPCorr) (start1 end1 start2 end2 : Nat) : Option PPCorr :=
  (List.range' start1 (end1 - start1)).foldlM (fun (t : PPCorr) i1 =>
    t.onRow buckets chunk i1 (·.addRange buckets chunk start2 end2)) t

def PPCorr.merge (t rhs : PPCorr) : Option PPCorr :=
  (List.range (buckets * chunk)).foldlM (fun (t : PPCorr) i =>
      t.onRow buckets chunk i (·.merge buckets chunk (rhs.corr i)))
    { t with count := fun i => if i < buckets * chunk then t.count i + rhs.count i else t.count i }

end Code

structure DenseCounts where
  count : Nat → BitVec 32
  cell : Nat → Nat → BitVec 32

def one (c : Prop) [Decidable c] : BitVec 32 := if c then 1 else 0

def DenseCounts.adding (d : DenseCounts) (count : Nat → BitVec 32) (cell : Nat → Nat → BitVec 32) :
    DenseCounts :=
  ⟨fun i => d.count i + count i, fun i j => d.cell i j + cell i j⟩

inductive CorrOp
  | addSelf (i1 : Nat)
  | add (i1 i2 : Nat)
  | add2 (i1 i2b i2o : Nat)
  | addRangeSelf (start1 end1 : Nat)
  | addRange (start1 end1 start2 end2 : Nat)

/-- A table that is merged has a history of its own. -/
inductive CorrHist
  | clear
  | op (h : CorrHist) (o : CorrOp)
  | merge (h rhs : CorrHist)

section Histories

variable (buckets chunk : Nat)

def CorrOp.run (t : PPCorr) : CorrOp → Option PPCorr
  | .addSelf i1 => t.addSelf buckets chunk i1
  | .add i1 i2 => t.add buckets chunk i1 i2
  | .add2 i1 i2b i2o => t.add2 buckets chunk i1 i2b i2o
  | .addRangeSelf start1 end1 => t.addRangeSelf buckets chunk start1 end1
  | .addRange start1 end1 start2 end2 => t.addRange buckets chunk start1 end1 start2 end2

def CorrOp.count : CorrOp → Nat → BitVec 32
  | .addSelf i1, i => one (i = i1)
  | .addRangeSelf start1 end1, i => one (start1 ≤ i ∧ i < end1)
  | .add .., _ | .add2 .., _ | .addRange .., _ => 0

def CorrOp.cell : CorrOp → Nat → Nat → BitVec 32
  | .addSelf _, _, _ => 0
  | .add i1 i2, i, j => one (i = i1 ∧ j = i2)
  | .add2 i1 i2b i2o, i, j => one (i = i1 ∧ j = i2b * chunk + i2o)
  | .addRangeSelf start1 end1, i, j => one ((start1 ≤ i ∧ i < end1) ∧ i < j ∧ j < end1)
  | .addRange start1 end1 start2 end2, i, j =>
    one ((start1 ≤ i ∧ i < end1) ∧ start2 ≤ j ∧ j < end2)

def CorrOp.Valid : CorrOp → Prop
  | .addSelf i1 => i1 < buckets * chunk
  | .add i1 i2 => i1 < buckets * chunk ∧ i2 < buckets * chunk
  | .add2 i1 i2b i2o => i1 < buckets * chunk ∧ i2b < buckets ∧ i2o < chunk
  | .addRangeSelf start1 end1 => start1 < end1 ∧ end1 ≤ buckets * chunk
  | .addRange start1 end1 start2 end2 => (start1 < end1 ∧ end1 ≤ buckets * chunk) ∧
      start2 < end2 ∧ end2 ≤ buckets * chunk

def CorrHist.table : CorrHist → Option PPCorr
  | .clear => some .clear
  | .op h o => h.table.bind (o.run buckets chunk)
  | .merge h rhs => h.table.bind fun t => rhs.table.bind (t.merge buckets chunk)

def CorrHist.dense : CorrHist → DenseCounts
  | .clear => ⟨fun _ => 0#32, fun _ _ => 0#32⟩
  | .op h o => h.dense.adding o.count (o.cell chunk)
  | .merge h rhs => h.dense.adding rhs.dense.count rhs.dense.cell

def CorrHist.Valid : CorrHist → Prop
  | .clear => True
  | .op h o => h.Valid ∧ o.Valid buckets chunk
  | .merge h rhs => h.Valid ∧ rhs.Valid

def CorrHist.states : CorrHist → List CorrHist
  | .clear => [.clear]
  | .op h o => .op h o :: h.states
  | .merge h rhs => .merge h rhs :: (h.states ++ rhs.states)

def PPCorr.Shows (t : PPCorr) (d : DenseCounts) : Prop :=
  ∀ i < buckets * chunk, t.count i = d.count i ∧
    ∀ j < buckets * chunk, (t.corr i).cell chunk j = d.cell i j

def CorrHist.Agrees (h : CorrHist) : Prop :=
  ∃ t, h.table buckets chunk = some t ∧ t.Shows buckets chunk (h.dense chunk)

/-- Where a row of `rhs` has a bucket, all counts are zero so far. -/
def PPCorr.Apart (t rhs : PPCorr) : Prop :=
  ∀ i < buckets * chunk, ∀ j < buckets * chunk, (rhs.corr i).ptrOffset (j / chunk) ≠ -1 →
    (t.corr i).cell chunk j = 0

/-- The condition for the last operation: `add2` is not used, and a merge does not meet counts. -/
def CorrHist.StepMeets : CorrHist → Prop
  | .op _ (.add2 ..) => False
  | .merge h rhs => ∀ t t', h.table buckets chunk = some t → rhs.table buckets chunk = some t' →
      t.Apart buckets chunk t'
  | _ => True

end Histories

section Effects

variable {buckets chunk : Nat}

def PPCorr.Inv (buckets chunk : Nat) (t : PPCorr) : Prop :=
  ∀ i < buckets * chunk, (t.corr i).Inv buckets chunk

structure PPCorr.Adds (buckets chunk : Nat) (t t' : PPCorr) (count : Nat → BitVec 32)
    (cell : Nat → Nat → BitVec 32) : Prop where
  inv : t'.Inv buckets chunk
  count : ∀ i < buckets * chunk, t'.count i = t.count i + count i
  cell : ∀ i < buckets * chunk, ∀ j,
    (t'.corr i).cell chunk j = (t.corr i).cell chunk j + cell i j

variable {t t' t'' : PPCorr} {count count' : Nat → BitVec 32} {cell cell' : Nat → Nat → BitVec 32}

theorem PPCorr.Adds.refl (h : t.Inv buckets chunk) :
    t.Adds buckets chunk t (fun _ => 0) fun _ _ => 0 :=
  ⟨h, fun _ _ => (BitVec.add_zero _).symm, fun _ _ _ => (BitVec.add_zero _).symm⟩

theorem PPCorr.Adds.trans (h : t.Adds buckets chunk t' count cell)
    (h' : t'.Adds buckets chunk t'' count' cell') :
    t.Adds buckets chunk t'' (fun i => count i + count' i) fun i j => cell i j + cell' i j := by
  refine ⟨h'.inv, fun i hi => ?_, fun i hi j => ?_⟩
  · rw [h'.count i hi, h.count i hi, BitVec.add_assoc]
  · rw [h'.cell i hi j, h.cell i hi j, BitVec.add_assoc]

theorem PPCorr.Adds.congr (h : t.Adds buckets chunk t' count cell)
    (hcount : ∀ i, count i = count' i) (hcell : ∀ i j, cell i j = cell' i j) :
    t.Adds buckets chunk t' count' cell' :=
  ⟨h.inv, fun i hi => by rw [h.count i hi, hcount], fun i hi j => by rw [h.cell i hi j, hcell]⟩

theorem PPCorr.Adds.shows {d : DenseCounts} (h : t.Adds buckets chunk t' count cell)
    (hd : t.Shows buckets chunk d) : t'.Shows buckets chunk (d.adding count cell) := by
  intro i hi
  refine ⟨?_, fun j hj => ?_⟩
  · rw [h.count i hi, (hd i hi).1, DenseCounts.adding]
  · rw [h.cell i hi j, (hd i hi).2 j hj, DenseCounts.adding]

theorem addSelf_adds (h : t.Inv buckets chunk) {i1 : Nat} (hi : i1 < buckets * chunk) :
    ∃ t', t.addSelf buckets chunk i1 = some t' ∧
      t.Adds buckets chunk t' (fun i => one (i = i1)) fun _ _ => 0 := by
  refine ⟨_, if_pos hi, h, fun i _ => ?_, fun _ _ _ => (BitVec.add_zero _).symm⟩
  by_cases heq : i = i1
  · subst heq
    simp [one]
  · simp [one, heq]

theorem onRow_adds (h : t.Inv buckets chunk) {i1 : Nat} (hi : i1 < buckets * chunk)
    {f : PCorr → Option PCorr} {p : PCorr} {row : Nat → BitVec 32} (hf : f (t.corr i1) = some p)
    (hp : p.Inv buckets chunk)
    (hrow : ∀ j, p.cell chunk j = (t.corr i1).cell chunk j + row j) :
    ∃ t', t.onRow buckets chunk i1 f = some t' ∧
      t.Adds buckets chunk t' (fun _ => 0) fun i j => if i = i1 then row j else 0 := by
  refine ⟨{ t with corr := Function.update t.corr i1 p }, ?_, ?_, ?_, ?_⟩
  · rw [PPCorr.onRow, if_pos hi, hf, Option.map_some]
  · intro i hi'
    by_cases heq : i = i1
    · subst heq
      simpa using hp
    · simpa [Function.update_of_ne heq] using h i hi'
  · exact fun i _ => (BitVec.add_zero _).symm
  · intro i _ j
    by_cases heq : i = i1
    · subst heq
      simpa using hrow j
    · simp [heq]

theorem addRow_adds (h : t.Inv buckets chunk) (hchunk : 0 < chunk) (hbuckets : buckets ≤ 2 ^ 15)
    {i1 start stop : Nat} (hi : i1 < buckets * chunk) (hstop : stop ≤ buckets * chunk) :
    ∃ t', t.onRow buckets chunk i1 (·.addRange buckets chunk start stop) = some t' ∧
      t.Adds buckets chunk t' (fun _ => 0) fun i j => one (i = i1 ∧ start ≤ j ∧ j < stop) := by
  obtain ⟨p, hp, hinv, hcell⟩ := @PCorr.Inv.addRange _ _ _ (h i1 hi) hchunk hbuckets start _ hstop
  obtain ⟨t', ht', hadds⟩ := onRow_adds h hi hp hinv hcell
  refine ⟨t', ht', hadds.congr (fun _ => rfl) fun i j => ?_⟩
  unfold one
  by_cases heq : i = i1
  · simp [heq]
  · simp [heq]

theorem addRange_adds (h : t.Inv buckets chunk) (hchunk : 0 < chunk) (hbuckets : buckets ≤ 2 ^ 15)
    {start1 n start2 end2 : Nat} (hn : start1 + n ≤ buckets * chunk)
    (hend : end2 ≤ buckets * chunk) :
    ∃ t', (List.range' start1 n).foldlM (fun (t : PPCorr) i1 =>
        t.onRow buckets chunk i1 (·.addRange buckets chunk start2 end2)) t = some t' ∧
      t.Adds buckets chunk t' (fun _ => 0)
        fun i j => one ((start1 ≤ i ∧ i < start1 + n) ∧ start2 ≤ j ∧ j < end2) := by
  induction n with
  | zero =>
    refine ⟨t, rfl, (PPCorr.Adds.refl h).congr (fun _ => rfl) fun i j => ?_⟩
    rw [one, if_neg (by omega)]
  | succ n ih =>
    obtain ⟨t1, ht1, hadds1⟩ := ih (by omega)
    obtain ⟨t2, ht2, hadds2⟩ := @addRow_adds _ _ _ hadds1.inv hchunk hbuckets (start1 + n)
      start2 _ (by omega) hend
    refine ⟨t2, ?_, (hadds1.trans hadds2).congr (fun _ => rfl) fun i j => ?_⟩
    · rw [List.range'_1_concat, List.foldlM_append, ht1]
      simp [ht2]
    · unfold one
      by_cases heq : i = start1 + n
      · rw [if_neg (by omega)]
        refine (BitVec.zero_add _).trans (if_congr ?_ rfl rfl)
        omega
      · rw [if_neg (show ¬(i = start1 + n ∧ start2 ≤ j ∧ j < end2) from fun hc => heq hc.1)]
        refine (BitVec.add_zero _).trans (if_congr ?_ rfl rfl)
        omega

theorem addRangeSelf_loop (h : t.Inv buckets chunk) (hchunk : 0 < chunk)
    (hbuckets : buckets ≤ 2 ^ 15) {start1 n end1 : Nat} (hn : start1 + n ≤ buckets * chunk)
    (hend : end1 ≤ buckets * chunk) :
    ∃ t', (List.range' start1 n).foldlM (fun (t : PPCorr) i1 =>
        (t.addSelf buckets chunk i1).bind
          (·.onRow buckets chunk i1 (·.addRange buckets chunk (i1 + 1) end1))) t = some t' ∧
      t.Adds buckets chunk t' (fun i => one (start1 ≤ i ∧ i < start1 + n))
        fun i j => one ((start1 ≤ i ∧ i < start1 + n) ∧ i < j ∧ j < end1) := by
  induction n with
  | zero =>
    refine ⟨t, rfl, (PPCorr.Adds.refl h).congr (fun i => ?_) fun i j => ?_⟩
    · rw [one, if_neg (by omega)]
    · rw [one, if_neg (by omega)]
  | succ n ih =>
    obtain ⟨t1, ht1, hadds1⟩ := ih (by omega)
    obtain ⟨t2, ht2, hadds2⟩ := @addSelf_adds _ _ _ hadds1.inv (start1 + n) (by omega)
    obtain ⟨t3, ht3, hadds3⟩ := @addRow_adds _ _ _ hadds2.inv hchunk hbuckets (start1 + n)
      (start1 + n + 1) _ (by omega) hend
    refine ⟨t3, ?_, ((hadds1.trans hadds2).trans hadds3).congr (fun i => ?_) fun i j => ?_⟩
    · rw [List.range'_1_concat, List.foldlM_append, ht1]
      simp [ht2, ht3]
    · unfold one
      refine (BitVec.add_zero _).trans ?_
      by_cases heq : i = start1 + n
      · rw [if_neg (by omega), if_pos heq, if_pos (by omega)]
        rfl
      · rw [if_neg heq]
        refine (BitVec.add_zero _).trans (if_congr ?_ rfl rfl)
        omega
    · unfold one
      rw [show ∀ x : BitVec 32, x + 0 = x from BitVec.add_zero]
      by_cases heq : i = start1 + n
      · rw [if_neg (by omega)]
        refine (BitVec.zero_add _).trans (if_congr ?_ rfl rfl)
        omega
      · rw [if_neg (show ¬(i = start1 + n ∧ start1 + n + 1 ≤ j ∧ j < end1) from fun hc => heq hc.1)]
        refine (BitVec.add_zero _).trans (if_congr ?_ rfl rfl)
        omega

theorem addRangeSelf_adds (h : t.Inv buckets chunk) (hchunk : 0 < chunk)
    (hbuckets : buckets ≤ 2 ^ 15) {start1 end1 : Nat} (hlt : start1 < end1)
    (hend : end1 ≤ buckets * chunk) :
    ∃ t', t.addRangeSelf buckets chunk start1 end1 = some t' ∧
      t.Adds buckets chunk t' (fun i => one (start1 ≤ i ∧ i < end1))
        fun i j => one ((start1 ≤ i ∧ i < end1) ∧ i < j ∧ j < end1) := by
  obtain ⟨t1, ht1, hadds1⟩ := @addRangeSelf_loop _ _ _ h hchunk hbuckets start1
    (end1 - 1 - start1) _ (by omega) hend
  obtain ⟨t2, ht2, hadds2⟩ := @addSelf_adds _ _ _ hadds1.inv (end1 - 1) (by omega)
  refine ⟨t2, ?_, (hadds1.trans hadds2).congr (fun i => ?_) fun i j => ?_⟩
  · simp only [PPCorr.addRangeSelf, ht1, Option.bind_eq_bind, Option.bind_some]
    exact ht2
  · unfold one
    by_cases heq : i = end1 - 1
    · rw [if_neg (by omega), if_pos heq, if_pos (by omega)]
      rfl
    · rw [if_neg heq]
      refine (BitVec.add_zero _).trans (if_congr ?_ rfl rfl)
      omega
  · refine (BitVec.add_zero _).trans (if_congr ?_ rfl rfl)
    omega

theorem add_adds (h : t.Inv buckets chunk) (hchunk : 0 < chunk) (hbuckets : buckets ≤ 2 ^ 15)
    {i1 i2 : Nat} (h1 : i1 < buckets * chunk) (h2 : i2 < buckets * chunk) :
    ∃ t', t.add buckets chunk i1 i2 = some t' ∧
      t.Adds buckets chunk t' (fun _ => 0) fun i j => one (i = i1 ∧ j = i2) := by
  obtain ⟨p, hp, hinv, hcell⟩ := (h i1 h1).add hchunk hbuckets h2
  obtain ⟨t', ht', hadds⟩ := onRow_adds (f := (·.add buckets chunk i2)) h h1 hp hinv hcell
  refine ⟨t', ht', hadds.congr (fun _ => rfl) fun i j => ?_⟩
  unfold one
  by_cases heq : i = i1
  · simp [heq]
  · simp [heq]

theorem add2_adds (h : t.Inv buckets chunk) (hchunk : 0 < chunk) (hbuckets : buckets ≤ 2 ^ 15)
    {i1 i2b i2o : Nat} (h1 : i1 < buckets * chunk) (hb : i2b < buckets) (ho : i2o < chunk) :
    ∃ t', t.add2 buckets chunk i1 i2b i2o = some t' ∧
      t.Adds buckets chunk t' (fun _ => 0) fun i j => one (i = i1 ∧ i2b ≤ j ∧ j < i2o) := by
  refine addRow_adds h hchunk hbuckets h1 ?_
  have hle := Nat.mul_le_mul_right chunk (show 1 ≤ buckets by omega)
  omega

structure PPCorr.Merged (buckets chunk : Nat) (t rhs : PPCorr) (n : Nat) (t' : PPCorr) : Prop where
  inv : t'.Inv buckets chunk
  count : ∀ i < buckets * chunk, t'.count i = t.count i + rhs.count i
  cell : ∀ i < buckets * chunk, ∀ j < buckets * chunk, (t'.corr i).cell chunk j =
    if i < n ∧ (rhs.corr i).ptrOffset (j / chunk) ≠ -1 then (rhs.corr i).cell chunk j
    else (t.corr i).cell chunk j

theorem merge_merged {rhs : PPCorr} (h : t.Inv buckets chunk) (hrhs : rhs.Inv buckets chunk)
    (hchunk : 0 < chunk) (hbuckets : buckets ≤ 2 ^ 15) :
    ∃ t', t.merge buckets chunk rhs = some t' ∧
      t.Merged buckets chunk rhs (buckets * chunk) t' := by
  refine foldlM_range_some (fun n t1 hn hmerged => ?_)
    ⟨h, fun i hi => if_pos hi, fun i _ j _ => by rw [if_neg fun hi => Nat.not_lt_zero _ hi.1]⟩
  obtain ⟨p, hp, hinv, hcell⟩ := (hmerged.inv n hn).merge (hrhs n hn) hchunk hbuckets
  refine ⟨{ t1 with corr := Function.update t1.corr n p }, ?_, ?_, hmerged.count, ?_⟩
  · rw [PPCorr.onRow, if_pos hn, hp, Option.map_some]
  · intro i hi
    by_cases heq : i = n
    · subst heq
      simpa using hinv
    · simpa [Function.update_of_ne heq] using hmerged.inv i hi
  · intro i hi j hj
    by_cases heq : i = n
    · subst heq
      have hold := hmerged.cell i hi j hj
      rw [if_neg fun hlt => Nat.lt_irrefl _ hlt.1] at hold
      simp only [Function.update_self, hcell j hj, hold]
      exact if_congr (and_iff_right (Nat.lt_succ_self i)).symm rfl rfl
    · simp only [Function.update_of_ne heq, hmerged.cell i hi j hj]
      refine if_congr (and_congr_left fun _ => ?_) rfl rfl
      omega

theorem PPCorr.Merged.shows_iff {rhs : PPCorr} {d dRhs : DenseCounts}
    (h : t.Merged buckets chunk rhs (buckets * chunk) t') (hd : t.Shows buckets chunk d)
    (hrhs : rhs.Shows buckets chunk dRhs) :
    t'.Shows buckets chunk (d.adding dRhs.count dRhs.cell) ↔ t.Apart buckets chunk rhs := by
  constructor
  · intro hshows i hi j hj hused
    have hcell := (hshows i hi).2 j hj
    rw [h.cell i hi j hj, if_pos ⟨hi, hused⟩, DenseCounts.adding] at hcell
    dsimp only at hcell
    rw [← (hrhs i hi).2 j hj, ← (hd i hi).2 j hj] at hcell
    bv_omega
  · intro hapart i hi
    refine ⟨?_, fun j hj => ?_⟩
    · rw [h.count i hi, (hd i hi).1, (hrhs i hi).1, DenseCounts.adding]
    · rw [h.cell i hi j hj, DenseCounts.adding]
      dsimp only
      rw [← (hrhs i hi).2 j hj, ← (hd i hi).2 j hj]
      by_cases hused : (rhs.corr i).ptrOffset (j / chunk) = -1
      · rw [if_neg fun hc => hc.2 hused, PCorr.cell_free hused]
        exact (BitVec.add_zero _).symm
      · rw [if_pos ⟨hi, hused⟩, hapart i hi j hj hused]
        exact (BitVec.zero_add _).symm

end Effects

section Runs

variable {buckets chunk : Nat} {h : CorrHist} {o : CorrOp}

/-- What an operation really adds. Only `add2` does not do what it should. -/
def CorrOp.effect (chunk : Nat) : CorrOp → Nat → Nat → BitVec 32
  | .add2 i1 i2b i2o, i, j => one (i = i1 ∧ i2b ≤ j ∧ j < i2o)
  | o, i, j => o.cell chunk i j

theorem CorrOp.Valid.run {t : PPCorr} (hvalid : o.Valid buckets chunk) (hinv : t.Inv buckets chunk)
    (hchunk : 0 < chunk) (hbuckets : buckets ≤ 2 ^ 15) :
    ∃ t', o.run buckets chunk t = some t' ∧
      t.Adds buckets chunk t' o.count (o.effect chunk) := by
  cases o with
  | addSelf i1 => exact addSelf_adds hinv hvalid
  | add i1 i2 => exact add_adds hinv hchunk hbuckets hvalid.1 hvalid.2
  | add2 i1 i2b i2o => exact add2_adds hinv hchunk hbuckets hvalid.1 hvalid.2.1 hvalid.2.2
  | addRangeSelf start1 end1 => exact addRangeSelf_adds hinv hchunk hbuckets hvalid.1 hvalid.2
  | addRange start1 end1 start2 end2 =>
    obtain ⟨⟨hlt, hend⟩, -, hend2⟩ := hvalid
    have hsum : start1 + (end1 - start1) = end1 := by omega
    have hadds := @addRange_adds _ _ _ hinv hchunk hbuckets start1 (end1 - start1)
      start2 _ (by omega) hend2
    rwa [hsum] at hadds

theorem CorrHist.Valid.table (hvalid : h.Valid buckets chunk) (hchunk : 0 < chunk)
    (hbuckets : buckets ≤ 2 ^ 15) :
    ∃ t, h.table buckets chunk = some t ∧ t.Inv buckets chunk := by
  induction h with
  | clear => exact ⟨.clear, rfl, fun _ _ => PCorr.clear_inv⟩
  | op h o ih =>
    obtain ⟨t, ht, hinv⟩ := ih hvalid.1
    obtain ⟨t', ht', hadds⟩ := hvalid.2.run hinv hchunk hbuckets
    exact ⟨t', by rw [CorrHist.table, ht, Option.bind_some, ht'], hadds.inv⟩
  | merge h rhs ih ihRhs =>
    obtain ⟨t, ht, hinv⟩ := ih hvalid.1
    obtain ⟨tRhs, htRhs, hinvRhs⟩ := ihRhs hvalid.2
    obtain ⟨t', ht', hmerged⟩ := merge_merged hinv hinvRhs hchunk hbuckets
    exact ⟨t', by rw [CorrHist.table, ht, Option.bind_some, htRhs, Option.bind_some, ht'],
      hmerged.inv⟩

theorem CorrHist.mem_states (h : CorrHist) : h ∈ h.states := by
  cases h with
  | _ => exact List.mem_cons_self

theorem agrees_iff_shows {t : PPCorr} (ht : h.table buckets chunk = some t) :
    h.Agrees buckets chunk ↔ t.Shows buckets chunk (h.dense chunk) := by
  constructor
  · rintro ⟨t', ht', hshows⟩
    obtain rfl := Option.some.inj (ht.symm.trans ht')
    exact hshows
  · exact fun hshows => ⟨t, ht, hshows⟩

theorem add2_not_shows {t t' : PPCorr} {d : DenseCounts} {i1 i2b i2o : Nat}
    (hvalid : (CorrOp.add2 i1 i2b i2o).Valid buckets chunk)
    (hadds : t.Adds buckets chunk t' (CorrOp.count (.add2 i1 i2b i2o))
      (CorrOp.effect chunk (.add2 i1 i2b i2o)))
    (hd : t.Shows buckets chunk d) :
    ¬t'.Shows buckets chunk (d.adding (CorrOp.count (.add2 i1 i2b i2o))
      (CorrOp.cell chunk (.add2 i1 i2b i2o))) := by
  intro hshows
  obtain ⟨h1, hb, ho⟩ := hvalid
  have hle := Nat.mul_le_mul_right chunk (show i2b + 1 ≤ buckets by omega)
  rw [Nat.add_one_mul] at hle
  have hj : i2b * chunk + i2o < buckets * chunk := by omega
  have hcell := (hshows i1 h1).2 _ hj
  rw [hadds.cell i1 h1, (hd i1 h1).2 _ hj, DenseCounts.adding] at hcell
  have hnone : CorrOp.effect chunk (.add2 i1 i2b i2o) i1 (i2b * chunk + i2o) = 0 := by
    refine if_neg ?_
    omega
  have hone : CorrOp.cell chunk (.add2 i1 i2b i2o) i1 (i2b * chunk + i2o) = 1 :=
    if_pos ⟨rfl, rfl⟩
  dsimp only at hcell
  rw [hnone, hone] at hcell
  bv_omega

theorem op_agrees_iff (hvalid : (CorrHist.op h o).Valid buckets chunk) (hchunk : 0 < chunk)
    (hbuckets : buckets ≤ 2 ^ 15) (hagrees : h.Agrees buckets chunk) :
    (CorrHist.op h o).Agrees buckets chunk ↔ (CorrHist.op h o).StepMeets buckets chunk := by
  obtain ⟨t, ht, hinv⟩ := hvalid.1.table hchunk hbuckets
  obtain ⟨t', ht', hadds⟩ := hvalid.2.run hinv hchunk hbuckets
  have hshows := (agrees_iff_shows ht).mp hagrees
  rw [agrees_iff_shows (t := t') (by rw [CorrHist.table, ht, Option.bind_some, ht'])]
  cases o with
  | add2 i1 i2b i2o => exact iff_of_false (add2_not_shows hvalid.2 hadds hshows) id
  | _ => exact iff_of_true (hadds.shows hshows) trivial

theorem merge_agrees_iff {rhs : CorrHist} (hvalid : (CorrHist.merge h rhs).Valid buckets chunk)
    (hchunk : 0 < chunk) (hbuckets : buckets ≤ 2 ^ 15) (hagrees : h.Agrees buckets chunk)
    (hagreesRhs : rhs.Agrees buckets chunk) :
    (CorrHist.merge h rhs).Agrees buckets chunk ↔
      (CorrHist.merge h rhs).StepMeets buckets chunk := by
  obtain ⟨t, ht, hinv⟩ := hvalid.1.table hchunk hbuckets
  obtain ⟨tRhs, htRhs, hinvRhs⟩ := hvalid.2.table hchunk hbuckets
  obtain ⟨t', ht', hmerged⟩ := merge_merged hinv hinvRhs hchunk hbuckets
  rw [agrees_iff_shows (t := t')
    (by rw [CorrHist.table, ht, Option.bind_some, htRhs, Option.bind_some, ht'])]
  refine (hmerged.shows_iff ((agrees_iff_shows ht).mp hagrees)
    ((agrees_iff_shows htRhs).mp hagreesRhs)).trans ?_
  constructor
  · intro hapart t1 t2 h1 h2
    obtain rfl := Option.some.inj (ht.symm.trans h1)
    obtain rfl := Option.some.inj (htRhs.symm.trans h2)
    exact hapart
  · exact fun hmeets => hmeets t tRhs ht htRhs

/-- In tables in which no row has more than 32768 buckets, the counts agree after every step if and
only if every step meets the condition. -/
theorem sparse_counts_agree_iff (hchunk : 0 < chunk) (hbuckets : buckets ≤ 2 ^ 15)
    (hvalid : h.Valid buckets chunk) :
    (∀ s ∈ h.states, s.Agrees buckets chunk) ↔ ∀ s ∈ h.states, s.StepMeets buckets chunk := by
  induction h with
  | clear =>
    refine iff_of_true ?_ ?_
    · rintro s (_ | ⟨_, ⟨⟩⟩)
      exact ⟨.clear, rfl, fun i _ => ⟨rfl, fun j _ => PCorr.cell_free rfl⟩⟩
    · rintro s (_ | ⟨_, ⟨⟩⟩)
      trivial
  | op h o ih =>
    rw [CorrHist.states, List.forall_mem_cons, List.forall_mem_cons, ← ih hvalid.1]
    refine and_congr_left fun hall => ?_
    exact op_agrees_iff hvalid hchunk hbuckets (hall h h.mem_states)
  | merge h rhs ih ihRhs =>
    rw [CorrHist.states, List.forall_mem_cons, List.forall_mem_cons, List.forall_mem_append,
      List.forall_mem_append, ← ih hvalid.1, ← ihRhs hvalid.2]
    refine and_congr_left fun hall => ?_
    exact merge_agrees_iff hvalid hchunk hbuckets (hall.1 h h.mem_states)
      (hall.2 rhs rhs.mem_states)

theorem sparse_counts_agree_demo :
    (CorrHist.merge (.op .clear (.add 0 0)) (.op .clear (.add 1 1))).states.length = 5 ∧
      ∀ s ∈ (CorrHist.merge (.op .clear (.add 0 0)) (.op .clear (.add 1 1))).states,
        s.Agrees 2 1 := by
  refine ⟨rfl, (sparse_counts_agree_iff (by decide) (by decide) ?_).mpr ?_⟩
  · exact ⟨⟨trivial, by decide, by decide⟩, trivial, by decide, by decide⟩
  · intro s hs
    simp only [CorrHist.states, List.mem_cons, List.mem_append, List.not_mem_nil, or_false] at hs
    rcases hs with rfl | (rfl | rfl) | rfl | rfl
    · intro t t' ht ht' i hi j hj hused
      obtain rfl := Option.some.inj ht
      obtain rfl := Option.some.inj ht'
      have hcases : i = 0 ∨ i = 1 := by omega
      rcases hcases with rfl | rfl
      · exact absurd rfl hused
      · exact PCorr.cell_free rfl
    · trivial
    · trivial
    · trivial
    · trivial

theorem sparse_merge_overwrites :
    ¬∀ s ∈ (CorrHist.merge (.op .clear (.add 0 0)) (.op .clear (.add 0 0))).states,
      s.Agrees 1 1 := by
  intro hall
  obtain ⟨t, ht, hshows⟩ := hall _ (CorrHist.mem_states _)
  obtain rfl := Option.some.inj ht
  have hcell := (hshows 0 (by decide)).2 0 (by decide)
  exact absurd hcell (by decide)

end Runs

end Ucesb
