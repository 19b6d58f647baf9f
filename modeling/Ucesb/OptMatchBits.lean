import Ucesb.OptMatch

namespace Ucesb

section Fixed

theorem numBitsMask_testBit (n i : Nat) : (numBitsMask n).testBit i = decide (i < n) :=
  Nat.testBit_two_pow_sub_one n i

theorem nonFixed_testBit (n x k : Nat) :
    (nonFixed n x).testBit k = true ↔ ∃ j, j ≤ n ∧ x.testBit (k + j) = true := by
  induction n generalizing x with
  | zero =>
    constructor
    · intro h
      exact ⟨0, Nat.le_refl _, h⟩
    · rintro ⟨j, hj, h⟩
      cases Nat.le_zero.mp hj
      exact h
  | succ n ih =>
    rw [nonFixed, ih]
    simp only [Nat.testBit_or, Nat.testBit_shiftRight, Bool.or_eq_true]
    constructor
    · rintro ⟨j, hj, h | h⟩
      · exact ⟨j, by omega, h⟩
      · exact ⟨j + 1, by omega, by rw [← h]; congr 1; omega⟩
    · rintro ⟨j, hj, h⟩
      by_cases hlast : j = n + 1
      · refine ⟨n, Nat.le_refl _, .inr ?_⟩
        rw [← h]
        congr 1
        omega
      · exact ⟨j, by omega, .inl h⟩

theorem range_fixed {low high v k : Nat} (hhigh : high < 2 ^ 32) (hlow : low ≤ v) (hv : v ≤ high)
    (hfixed : (nonFixed 32 (high ^^^ low)).testBit k = false) :
    v.testBit k = high.testBit k := by
  have hsame : low / 2 ^ k = high / 2 ^ k := by
    apply Nat.eq_of_testBit_eq
    intro j
    rw [Nat.testBit_div_two_pow, Nat.testBit_div_two_pow]
    by_cases hj : j ≤ 32
    · by_contra hne
      have hbit : (nonFixed 32 (high ^^^ low)).testBit k = true := by
        rw [nonFixed_testBit]
        refine ⟨j, hj, ?_⟩
        rw [Nat.testBit_xor, Nat.add_comm]
        cases h1 : high.testBit (j + k) with
        | true =>
          cases h2 : low.testBit (j + k) with
          | true => exact absurd (h2.trans h1.symm) hne
          | false => rfl
        | false =>
          cases h2 : low.testBit (j + k) with
          | true => rfl
          | false => exact absurd (h2.trans h1.symm) hne
      rw [hfixed] at hbit
      cases hbit
    · have hpow : 2 ^ 32 ≤ 2 ^ (j + k) := Nat.pow_le_pow_right (by decide) (by omega)
      rw [Nat.testBit_lt_two_pow (by omega), Nat.testBit_lt_two_pow (by omega)]
  have hle := Nat.div_le_div_right (c := 2 ^ k) hlow
  have hge := Nat.div_le_div_right (c := 2 ^ k) hv
  have heq : v / 2 ^ k = high / 2 ^ k := by omega
  have hbit := congrArg (fun x => Nat.testBit x 0) heq
  simpa only [Nat.testBit_div_two_pow, Nat.zero_add] using hbit

theorem place_testBit (b : BitsSpec) (x i : Nat) :
    (b.place x).testBit i =
      (decide (i < 32) && decide (b.min ≤ i) && decide (i ≤ b.max) && x.testBit (i - b.min)) := by
  rw [BitsSpec.place, Nat.testBit_and, Nat.testBit_mod_two_pow, Nat.testBit_shiftLeft,
    numBitsMask_testBit]
  simp only [Nat.lt_succ_iff]
  cases decide (i < 32) <;> cases decide (b.min ≤ i) <;> cases decide (i ≤ b.max) <;> simp

theorem field_testBit (b : BitsSpec) (w i : Nat) (hmin : b.min ≤ i) (hmax : i ≤ b.max) :
    (b.field w).testBit (i - b.min) = w.testBit i := by
  have hordered := b.ordered
  rw [BitsSpec.field, Nat.testBit_mod_two_pow, Nat.testBit_div_two_pow,
    decide_eq_true (show i - b.min < b.max + 1 - b.min by omega), Bool.true_and]
  congr 1
  omega

end Fixed

section Word

variable {args : List (String × Variable)} {st : GenState}

def EvalAgrees (args : List (String × Variable)) (names : Lookup) : Prop :=
  ∀ x v, Variable.eval args x = some v → x.value names = v.toNat

def BitsAgree (w mask value : Nat) : Prop :=
  ∀ i, (value.testBit i = true → mask.testBit i = true) ∧
    (mask.testBit i = true → w.testBit i = value.testBit i)

theorem bitsAgree_zero (w : Nat) : BitsAgree w 0 0 := by
  intro i
  simp

theorem bitsAgree_place {b : BitsSpec} {w mask value : Nat}
    (h : ∀ j, (value.testBit j = true → mask.testBit j = true) ∧
      (mask.testBit j = true → (b.field w).testBit j = value.testBit j)) :
    BitsAgree w (b.place mask) (b.place value) := by
  intro i
  rw [place_testBit, place_testBit]
  by_cases hin : i < 32 ∧ b.min ≤ i ∧ i ≤ b.max
  · obtain ⟨hlt, hmin, hmax⟩ := hin
    simp only [hlt, hmin, hmax, decide_true, Bool.true_and]
    rw [← field_testBit b w i hmin hmax]
    exact h (i - b.min)
  · have hout : (decide (i < 32) && decide (b.min ≤ i) && decide (i ≤ b.max)) = false := by
      by_contra hne
      simp only [Bool.not_eq_false, Bool.and_eq_true, decide_eq_true_eq] at hne
      exact hin ⟨hne.1.1, hne.1.2, hne.2⟩
    simp only [hout, Bool.false_and]
    simp

theorem getMatch_agrees {k : CheckPrefix} {b : BitsSpec} (heval : EvalAgrees args st.env.lookup)
    (h : (b.cond.all fun c => c.holds k st (b.field st.word)) = true) :
    BitsAgree st.word (b.getMatch args).1 (b.getMatch args).2 := by
  unfold BitsSpec.getMatch
  cases hc : b.cond with
  | none => exact bitsAgree_zero _
  | some c =>
    rw [hc, Option.all_some] at h
    refine bitsAgree_place ?_
    intro j
    cases c with
    | check x =>
      simp only [BitsCondition.getMatch]
      cases hx : x.eval args with
      | none => simp
      | some v =>
        have hvalue : b.field st.word = v.toNat := by
          rw [← heval x v hx]
          simpa only [BitsCondition.holds, beq_iff_eq] using h
        refine ⟨?_, fun _ => by rw [hvalue]⟩
        intro hbit
        rw [numBitsMask_testBit, decide_eq_true_eq]
        by_contra hge
        rw [BitVec.testBit_toNat, BitVec.getLsbD_of_ge v j (by omega)] at hbit
        cases hbit
    | range low high =>
      simp only [BitsCondition.getMatch]
      cases hlow : low.eval args with
      | none => simp
      | some min =>
        cases hhigh : high.eval args with
        | none => simp
        | some max =>
          simp only [BitsCondition.holds, heval low min hlow, heval high max hhigh,
            Bool.not_eq_true', Bool.or_eq_false_iff, decide_eq_false_iff_not, Nat.not_lt] at h
          simp only [Nat.testBit_and, Nat.testBit_xor, numBitsMask_testBit, Bool.and_eq_true]
          refine ⟨fun hbit => hbit.2, ?_⟩
          intro hfixed
          have hnot : (nonFixed 32 (max.toNat ^^^ min.toNat)).testBit j = false := by
            by_cases hj : j < 32
            · simpa [hj] using hfixed
            · by_contra hne
              rw [Bool.not_eq_false, nonFixed_testBit] at hne
              obtain ⟨i, -, hi⟩ := hne
              rw [Nat.testBit_xor, BitVec.testBit_toNat, BitVec.testBit_toNat,
                BitVec.getLsbD_of_ge max _ (by omega), BitVec.getLsbD_of_ge min _ (by omega)] at hi
              cases hi
          rw [range_fixed max.isLt h.1 h.2 hnot, hfixed, Bool.and_true]
    | checkCount start stop offset multiplier => simp [BitsCondition.getMatch]

theorem foldl_and_testBit {α : Type} (g : α → Nat) (l : List α) (m i : Nat) :
    (l.foldl (fun m a => m &&& g a) m).testBit i =
      (m.testBit i && l.all fun a => (g a).testBit i) := by
  induction l generalizing m with
  | nil => simp
  | cons a l ih => rw [List.foldl_cons, ih, Nat.testBit_and, List.all_cons, Bool.and_assoc]

theorem foldl_or_testBit {α : Type} (g : α → Nat) (l : List α) (m i : Nat) :
    (l.foldl (fun m a => m ||| g a) m).testBit i =
      (m.testBit i || l.any fun a => (g a).testBit i) := by
  induction l generalizing m with
  | nil => simp
  | cons a l ih => rw [List.foldl_cons, ih, Nat.testBit_or, List.any_cons, Bool.or_assoc]

theorem unnamedBits_width {size : WordSize} {bits : List BitsSpec} {i : Nat}
    (hsize : size.bits ≤ 32) (h : (unnamedBits 32 size bits).testBit i = true) :
    (unnamedBits 64 size bits).testBit i = true := by
  unfold unnamedBits at *
  rw [foldl_and_testBit] at *
  rw [Bool.and_eq_true] at *
  have hi : i < size.bits := by
    have hmask := h.1
    rw [numBitsMask_testBit] at hmask
    exact of_decide_eq_true hmask
  refine ⟨h.1, ?_⟩
  have hsame : ∀ n, 32 ≤ n → (numBitsMask n).testBit i = true := by
    intro n hn
    rw [numBitsMask_testBit, decide_eq_true_eq]
    omega
  simpa only [Nat.testBit_xor, hsame 32 (by decide), hsame 64 (by decide)] using h.2

theorem getMatchBits_agrees {k : CheckPrefix} {d : StructData} {mask value : Nat}
    (heval : EvalAgrees args st.env.lookup) (hbits : d.getMatchBits args = some (mask, value))
    (h : d.fits k st = true) : st.word &&& mask = value := by
  unfold StructData.getMatchBits at hbits
  split at hbits
  · cases hbits
  next hsize =>
    unfold StructData.fits at h
    cases hb : d.bits with
    | none =>
      rw [hb] at hbits
      cases hbits
      exact Nat.and_zero _
    | some bits =>
      rw [hb] at hbits h
      simp only [Bool.and_eq_true, List.all_eq_true, beq_iff_eq] at h
      cases hbits
      have hspec : ∀ b ∈ bits, BitsAgree st.word (b.getMatch args).1 (b.getMatch args).2 :=
        fun b hmem => getMatch_agrees heval (h.1 b hmem)
      apply Nat.eq_of_testBit_eq
      intro i
      rw [Nat.testBit_and, Nat.testBit_or, foldl_or_testBit, foldl_or_testBit, Nat.zero_testBit,
        Bool.false_or, Bool.false_or]
      cases hvalue : bits.any fun b => (b.getMatch args).2.testBit i with
      | true =>
        obtain ⟨b, hmem, hbit⟩ := List.any_eq_true.mp hvalue
        have hmask := (hspec b hmem i).1 hbit
        have hany : (bits.any fun b => (b.getMatch args).1.testBit i) = true :=
          List.any_eq_true.mpr ⟨b, hmem, hmask⟩
        rw [hany, (hspec b hmem i).2 hmask, hbit]
        rfl
      | false =>
        rw [Bool.and_eq_false_iff]
        cases hw : st.word.testBit i with
        | false => exact .inl rfl
        | true =>
          right
          rw [Bool.or_eq_false_iff]
          refine ⟨?_, ?_⟩
          · by_contra hne
            rw [Bool.not_eq_false] at hne
            obtain ⟨b, hmem, hmask⟩ := List.any_eq_true.mp hne
            have hbit := (hspec b hmem i).2 hmask
            have hnone := List.any_eq_false.mp hvalue b hmem
            rw [← hbit, hw] at hnone
            exact hnone rfl
          · by_contra hne
            rw [Bool.not_eq_false] at hne
            have hwide := unnamedBits_width (by omega) hne
            have hzero := congrArg (fun x => Nat.testBit x i) h.2
            simp only [Nat.testBit_and, hw, hwide, Nat.zero_testBit] at hzero
            cases hzero

end Word

section Test

variable {mem : Memory}

theorem call_find {args : List (String × Variable)} {st : GenState} {s : String}
    {a : String × Variable} (h : (args.find? fun a => a.1 == s) = some a) :
    ((st.call args).env.locals.find? fun a => a.1 == s) =
      some (a.1, a.2.value st.env.lookup) := by
  simp only [GenState.call, List.find?_map]
  rw [show ((fun a : String × Nat => a.1 == s) ∘
    fun a : String × Variable => (a.1, a.2.value st.env.lookup)) = fun a => a.1 == s from rfl, h]
  rfl

theorem evalAgrees_call {args : List (String × Variable)} {st st' : GenState}
    {locals : List (String × Nat)} (hfresh : ∀ x ∈ locals, ∀ a ∈ args, a.1 ≠ x.1)
    (henv : st'.env.locals = locals ++ (st.call args).env.locals) :
    EvalAgrees args st'.env.lookup := by
  intro x v hx
  cases x with
  | const value =>
    cases hx
    rfl
  | run value => cases hx
  | name s =>
    simp only [Variable.eval] at hx
    cases hfind : args.find? fun a => a.1 == s with
    | none =>
      rw [hfind] at hx
      cases hx
    | some a =>
      obtain ⟨name, var⟩ := a
      rw [hfind] at hx
      have hname : name = s := by
        have hbeq := List.find?_some hfind
        simpa using hbeq
      have hmem := List.mem_of_find?_eq_some hfind
      have hbefore : (locals.find? fun a => a.1 == s) = none := by
        rw [List.find?_eq_none]
        intro y hy heq
        refine hfresh y hy (name, var) hmem ?_
        rw [hname]
        simpa using Eq.symm (beq_iff_eq.mp heq)
      cases var with
      | name s => cases hx
      | run value => cases hx
      | const value =>
        cases hx
        simp only [Variable.value, Env.lookup, henv, List.append_assoc, List.find?_append, hbefore,
          call_find hfind]
        rfl

theorem get_of_peek {src : DataSrc} {size : WordSize} {w : Nat}
    (h : src.peek mem size = some w) :
    (∃ src', src.get mem size = some (w, src')) ∧ src.empty = false := by
  have hpos : 0 < size.bytes := by
    cases size
    · decide
    · decide
    · decide
    · decide
  refine ⟨?_, ?_⟩
  · rw [DataSrc.peek_eq] at h
    obtain ⟨⟨w', src'⟩, hget, rfl⟩ := Option.map_eq_some_iff.mp h
    exact ⟨src', hget⟩
  · unfold DataSrc.peek at h
    split at h
    · cases h
    · next hin =>
      rw [DataSrc.empty, beq_eq_false_iff_ne]
      omega

theorem walkData_fits (explicit : Bool) {d : StructData} {st : GenState} {w : Nat}
    (hpeek : st.src.peek mem d.size = some w)
    (h : (∃ st', walkData mem explicit d st false = .ended st') ∨
      ∃ st' displaced, walkData mem explicit d st false = .through st' displaced) :
    ∃ seen, d.fits .matching seen = true ∧ seen.word = w ∧
      seen.env.locals = (if d.noencode then [(d.ident, w)] else []) ++ st.env.locals := by
  obtain ⟨⟨src, hget⟩, hempty⟩ := get_of_peek hpeek
  unfold walkData at h
  rw [hget, hempty] at h
  simp only at h
  split at h
  · refine ⟨st.read d w src, ?_, rfl, ?_⟩
    · by_contra hne
      rw [if_neg hne] at h
      rcases h with ⟨st', h⟩ | ⟨st', displaced, h⟩
      · cases h
      · cases h
    · unfold GenState.read GenState.bind
      split
      · rfl
      · rfl
  · rw [if_neg Bool.false_ne_true] at h
    refine ⟨st.see d w, ?_, ?_, ?_⟩
    · cases hb : d.bits with
      | none => exact fits_of_no_bits hb _ _
      | some bits =>
        rw [hb] at h
        by_contra hne
        rw [Option.isNone_some, if_neg Bool.false_ne_true, if_neg hne] at h
        rcases h with ⟨st', h⟩ | ⟨st', displaced, h⟩
        · cases h
        · cases h
    · unfold GenState.see GenState.bind
      split
      · rfl
      · rfl
    · unfold GenState.see GenState.bind
      split
      · rfl
      · rfl

theorem walkList_first {explicit : Bool} {d : StructData} {st st' : GenState} {w : Nat}
    (body : List StructItem) (hfirst : firstData body = some d)
    (hpeek : st.src.peek mem d.size = some w)
    (h : StructItem.walkList mem explicit body st false = .ended st') :
    ∃ seen, d.fits .matching seen = true ∧ seen.word = w ∧
      seen.env.locals = (if d.noencode then [(d.ident, w)] else []) ++ st.env.locals := by
  induction body with
  | nil => cases hfirst
  | cons item rest ih =>
    cases item with
    | member => exact ih hfirst h
    | mark name => exact ih hfirst h
    | encode stored => exact ih hfirst h
    | data d' =>
      cases hfirst
      refine walkData_fits explicit hpeek ?_
      rw [StructItem.walkList, StructItem.walk] at h
      cases hwalk : walkData mem explicit d st false with
      | ended st1 => exact .inl ⟨st1, rfl⟩
      | through st1 displaced => exact .inr ⟨st1, displaced, rfl⟩
      | _ =>
        rw [hwalk] at h
        cases h
    | _ => cases hfirst

theorem test_getMatchBits {c : Candidate} {st : GenState} {size : WordSize} {mask value w : Nat}
    (hbits : c.getMatchBits = some (size, mask, value))
    (hpeek : st.src.peek mem size = some w) (htest : c.test mem st = some true) :
    w &&& mask = value := by
  unfold Candidate.getMatchBits at hbits
  obtain ⟨d, hfirst, hd⟩ := Option.bind_eq_some_iff.mp hbits
  obtain ⟨⟨mask', value'⟩, hmask, heq⟩ := Option.map_eq_some_iff.mp hd
  cases heq
  have hagrees := genMatchFcn_agrees mem c.body (st.call c.args)
  unfold Candidate.test at htest
  cases hwalk : walkStruct mem c.body (st.call c.args) with
  | ended st' =>
    obtain ⟨seen, hfits, hword, hlocals⟩ := walkList_first c.body hfirst
      (show (st.call c.args).src.peek mem d.size = some w from hpeek) hwalk
    rw [← hword]
    refine getMatchBits_agrees (evalAgrees_call ?_ hlocals) hmask hfits
    intro x hx a ha
    cases hn : d.noencode with
    | false =>
      rw [hn] at hx
      cases hx
    | true =>
      rw [hn, if_pos rfl] at hx
      cases List.mem_singleton.mp hx
      exact c.fresh d hfirst hn a ha
  | missing | inner =>
    rw [hwalk] at hagrees
    rw [show Stmt.execList mem (genMatchFcn c.body) (st.call c.args) = .error from hagrees] at htest
    cases htest
  | rejected =>
    rw [hwalk] at hagrees
    obtain ⟨st', hret⟩ := hagrees
    rw [hret] at htest
    cases htest
  | astray =>
    rw [hwalk] at hagrees
    obtain ⟨st', hret⟩ := hagrees
    rw [hret] at htest
    cases htest
  | through st' displaced =>
    rw [hwalk] at hagrees
    obtain ⟨st', hret⟩ := hagrees
    rw [hret] at htest
    cases htest

end Test

end Ucesb
