/-
# `CoreLink.Shell.FifoToken` — reading a line out of the FIFO: `fifo_scanc` and `fifo_get_token` of `src/shell/fifo.c`.

The loop of `fifo_get_token` takes a byte out before it looks at it and at the room in the buffer. So a zero byte ends the
token, a token that does not fit loses the byte that no longer fits, and one that just fits has no NUL. And both functions see
as many bytes as `fifo_count` says, the scan moreover through a counter of 8 bits.

`fifo_get_token_iff` says when a line is read as it should be.
-/
import CoreLink.Shell.Fifo

namespace CoreLink.Shell

open CoreLink.Lib

namespace FIFO

/-! ## The source -/

/-- The loop of `fifo_scanc`, for as many bytes; `tail` is an `uint8_t`. -/
def scancLoop (fifo : FIFO) (c : UInt8) : ℕ → ℕ → Bool
  | 0, _ => false
  | n + 1, tail => if fifo.buffer (tail % fifo.bufferLen) = c then true else fifo.scancLoop c n ((tail + 1) % 2 ^ 8)

/-- `fifo_scanc`. -/
def fifoScanc (fifo : FIFO) (c : UInt8) : Bool :=
  if !fifo.fifoEmpty then fifo.scancLoop c fifo.fifoCount (fifo.tail % 2 ^ 8) else false

/-- The loop of `fifo_get_token`, with at most a number of rounds; `i` is an `uint8_t`. -/
def tokenLoop (str len : ℕ) (term : UInt8) : ℕ → FIFO → (ℕ → UInt8) → ℕ → Option (FIFO × (ℕ → UInt8) × ℕ)
  | 0, _, _, _ => none
  | n + 1, fifo, m, i =>
    if fifo.fifoGetc.2 ≠ 0 ∧ fifo.fifoGetc.2 ≠ term ∧ i < len then
      tokenLoop str len term n fifo.fifoGetc.1 (Function.update m (str + i) fifo.fifoGetc.2) ((i + 1) % 2 ^ 8)
    else some (fifo.fifoGetc.1, m, i)

/-- `memset`. -/
def memset (m : ℕ → UInt8) (str len : ℕ) : ℕ → UInt8 := fun p => if str ≤ p ∧ p < str + len then 0 else m p

/-- `fifo_get_token`: the FIFO and the memory after it, and its result. Every round takes a byte that `fifo_count` has
counted, but for the last one. -/
def fifoGetToken (fifo : FIFO) (m : ℕ → UInt8) (str len : ℕ) (term : UInt8) : Option (FIFO × (ℕ → UInt8) × ℕ) :=
  if fifo.fifoScanc term then tokenLoop str len term (fifo.fifoCount + 1) fifo (memset m str len) 0
  else some (fifo, memset m str len, 0)

/-! ## What it should do -/

/-- **A line is read as it should be.** With a terminator stored, the bytes up to the first one are gone, and those before it are
a string within the buffer, all of them if they fit. Without one, nothing is gone. No byte outside of the buffer is written. -/
structure TokenRead (fifo : FIFO) (m : ℕ → UInt8) (str len : ℕ) (term : UInt8) (fifo' : FIFO) (m' : ℕ → UInt8) : Prop where
  consumed : term ∈ fifo.contents → fifo'.contents = fifo.contents.drop (fifo.contents.idxOf term + 1)
  delivered : term ∈ fifo.contents → ∃ k, k < len ∧ (fifo.contents.idxOf term < len → k = fifo.contents.idxOf term) ∧
    (∀ j, j < k → fifo.contents[j]? = some (m' (str + j))) ∧ m' (str + k) = 0
  kept : term ∉ fifo.contents → fifo' = fifo
  frame : ∀ p, p < str ∨ str + len ≤ p → m' p = m p

/-- The bytes that the scan looks at. -/
def scanned (fifo : FIFO) : List UInt8 := Counters.window 8 fifo.bufferLen fifo.buffer fifo.tail fifo.fifoCount

/-- **The lines that are.** The scan is right about the terminator. If there is one, the first one is among the bytes that are
counted and within the buffer, and no zero byte is in front of it. -/
def Readable (fifo : FIFO) (len : ℕ) (term : UInt8) : Prop :=
  (term ∈ fifo.scanned ↔ term ∈ fifo.contents) ∧
    (term ∈ fifo.contents → fifo.contents.idxOf term < fifo.fifoCount ∧ fifo.contents.idxOf term < len ∧
      0 ∉ fifo.contents.take (fifo.contents.idxOf term))

instance (fifo : FIFO) (len : ℕ) (term : UInt8) : Decidable (fifo.Readable len term) :=
  inferInstanceAs (Decidable (_ ∧ _))

/-! ## The scan -/

theorem scancLoop_iff (fifo : FIFO) (c : UInt8) (n tail : ℕ) :
    fifo.scancLoop c n (tail % 2 ^ 8) = true ↔ c ∈ Counters.window 8 fifo.bufferLen fifo.buffer tail n := by
  induction n generalizing tail with
  | zero => simp [scancLoop]
  | succ n ih =>
    have hget := Counters.window_get (w := 8) fifo.bufferLen fifo.buffer n (Nat.mod_lt tail (Nat.two_pow_pos 8))
    have hwindow : Counters.window 8 fifo.bufferLen fifo.buffer (tail % 2 ^ 8) (n + 1) =
        Counters.window 8 fifo.bufferLen fifo.buffer tail (n + 1) := by
      unfold Counters.window
      simp only [Nat.mod_add_mod]
    rw [scancLoop, ← hwindow, hget, List.mem_cons]
    by_cases hc : fifo.buffer (tail % 2 ^ 8 % fifo.bufferLen) = c
    · rw [if_pos hc]
      exact iff_of_true rfl (Or.inl hc.symm)
    · rw [if_neg hc, Nat.mod_add_mod, ih, or_iff_right (fun h => hc h.symm)]
      unfold Counters.window
      simp only [Nat.mod_add_mod]

theorem fifoScanc_iff (fifo : FIFO) (c : UInt8) : fifo.fifoScanc c = true ↔ c ∈ fifo.scanned := by
  unfold fifoScanc scanned
  by_cases hempty : fifo.fifoCount = 0
  · simp [fifoEmpty, hempty]
  · rw [← scancLoop_iff, if_pos (by simpa [fifoEmpty] using hempty)]

/-! ## Taking bytes out -/

/-- The counters are words. -/
structure Words (fifo : FIFO) : Prop where
  head_lt : fifo.head < 2 ^ 32
  tail_lt : fifo.tail < 2 ^ 32

theorem fifoCount_le (fifo : FIFO) : fifo.fifoCount ≤ fifo.contents.length := by
  rw [contents_length]
  exact Nat.mod_le _ _

theorem fifoGetc_empty {fifo : FIFO} (h : fifo.fifoCount = 0) : fifo.fifoGetc = (fifo, 0) := by
  simp [fifoGetc, fifoEmpty, h]

/-- A byte that is counted is taken out of the contents, and out of the count. -/
theorem Words.fifoGetc {fifo : FIFO} (h : fifo.Words) (hcount : fifo.fifoCount ≠ 0) :
    ∃ x, fifo.fifoGetc = (fifo.tailUp, x) ∧ fifo.contents = x :: fifo.tailUp.contents ∧
      fifo.fifoCount = fifo.tailUp.fifoCount + 1 ∧ fifo.tailUp.Words := by
  have hpos : 0 < fifo.stored := by
    by_contra hzero
    exact hcount (by rw [fifoCount, Nat.eq_zero_of_not_pos hzero, Nat.zero_mod])
  have hn : fifo.tailUp.stored = fifo.stored - 1 := by
    simpa only [stored, tailUp_head, tailUp_tail] using Counters.sub_succ_tail h.tail_lt h.head_lt hpos
  refine ⟨fifo.buffer (fifo.tail % fifo.bufferLen), ?_, ?_, ?_, h.head_lt, Nat.mod_lt _ (Nat.two_pow_pos 32)⟩
  · simp [FIFO.fifoGetc, fifoEmpty, hcount]
  · have hget := Counters.window_get fifo.bufferLen fifo.buffer (fifo.stored - 1) h.tail_lt
    rw [Nat.sub_add_cancel hpos] at hget
    unfold contents
    rw [hn, tailUp_bufferLen, tailUp_buffer, tailUp_tail]
    exact hget
  · unfold fifoCount at hcount ⊢
    rw [hn]
    omega

/-- **What the loop does**, with room for `room` bytes from `p` on: it stores the first `k` bytes, and takes one more out if
there is one. -/
structure Taken (fifo : FIFO) (m : ℕ → UInt8) (p room : ℕ) (term : UInt8) (k : ℕ) (fifo' : FIFO) (m' : ℕ → UInt8) : Prop where
  le_count : k ≤ fifo.fifoCount
  le_room : k ≤ room
  rest : fifo'.contents = fifo.contents.drop (min (k + 1) fifo.fifoCount)
  bytes : ∀ j, j < k → ∃ c, fifo.contents[j]? = some c ∧ c ≠ 0 ∧ c ≠ term ∧ m' (p + j) = c
  ended : k = room ∨ k = fifo.fifoCount ∨ ∃ c, fifo.contents[k]? = some c ∧ (c = 0 ∨ c = term)
  frame : ∀ q, q < p ∨ p + k ≤ q → m' q = m q

theorem Taken.of_empty {fifo : FIFO} (h : fifo.fifoCount = 0) (m : ℕ → UInt8) (p room : ℕ) (term : UInt8) :
    Taken fifo m p room term 0 fifo m where
  le_count := Nat.zero_le _
  le_room := Nat.zero_le _
  rest := by rw [h, Nat.min_zero, List.drop_zero]
  bytes := fun j hj => absurd hj (Nat.not_lt_zero j)
  ended := Or.inr (Or.inl h.symm)
  frame := fun _ _ => rfl

/-- The loop stops at the next byte, which is lost. -/
theorem Taken.of_stop {fifo : FIFO} {x : UInt8} {room : ℕ} {term : UInt8} (hc : fifo.contents = x :: fifo.tailUp.contents)
    (hcount : fifo.fifoCount = fifo.tailUp.fifoCount + 1) (hstop : ¬(x ≠ 0 ∧ x ≠ term ∧ 0 < room)) (m : ℕ → UInt8) (p : ℕ) :
    Taken fifo m p room term 0 fifo.tailUp m where
  le_count := Nat.zero_le _
  le_room := Nat.zero_le _
  rest := by
    rw [hc, show min (0 + 1) fifo.fifoCount = 1 by omega, List.drop_succ_cons, List.drop_zero]
  bytes := fun j hj => absurd hj (Nat.not_lt_zero j)
  ended := by
    by_cases hroom : room = 0
    · exact Or.inl hroom.symm
    · refine Or.inr (Or.inr ⟨x, by rw [hc, List.getElem?_cons_zero], ?_⟩)
      by_contra hx
      rw [not_or] at hx
      exact hstop ⟨hx.1, hx.2, Nat.pos_of_ne_zero hroom⟩
  frame := fun _ _ => rfl

/-- The loop stores the next byte and goes on. -/
theorem Taken.cons {fifo fifo' : FIFO} {m m' : ℕ → UInt8} {x term : UInt8} {p room k : ℕ}
    (hc : fifo.contents = x :: fifo.tailUp.contents) (hcount : fifo.fifoCount = fifo.tailUp.fifoCount + 1)
    (hzero : x ≠ 0) (hterm : x ≠ term)
    (h : Taken fifo.tailUp (Function.update m p x) (p + 1) room term k fifo' m') :
    Taken fifo m p (room + 1) term (k + 1) fifo' m' where
  le_count := by
    have := h.le_count
    omega
  le_room := Nat.succ_le_succ h.le_room
  rest := by
    rw [h.rest, hc, hcount, Nat.add_min_add_right, List.drop_succ_cons]
  bytes := by
    intro j hj
    cases j with
    | zero =>
      have hself : m' (p + 0) = x := (h.frame p (Or.inl (Nat.lt_succ_self p))).trans (Function.update_self p x m)
      exact ⟨x, by rw [hc, List.getElem?_cons_zero], hzero, hterm, hself⟩
    | succ j =>
      obtain ⟨c, hget, hc0, hct, hm⟩ := h.bytes j (Nat.lt_of_succ_lt_succ hj)
      rw [show p + 1 + j = p + (j + 1) by omega] at hm
      exact ⟨c, by rw [hc, List.getElem?_cons_succ, hget], hc0, hct, hm⟩
  ended := by
    rcases h.ended with hroom | hall | ⟨c, hget, hstop⟩
    · exact Or.inl (by rw [hroom])
    · exact Or.inr (Or.inl (by rw [hall, hcount]))
    · exact Or.inr (Or.inr ⟨c, by rw [hc, List.getElem?_cons_succ, hget], hstop⟩)
  frame := by
    intro q hq
    rw [h.frame q (by omega), Function.update_of_ne (by omega)]

/-- The induction is on the bytes that are counted; `i` does not wrap around, because there are fewer than 256. -/
theorem tokenLoop_spec (str len : ℕ) (term : UInt8) (n : ℕ) (fifo : FIFO) (m : ℕ → UInt8) (i : ℕ) (h : fifo.Words)
    (hn : fifo.fifoCount < n) (hi : i ≤ len) (hwrap : i + fifo.fifoCount < 2 ^ 8) :
    ∃ k fifo' m', tokenLoop str len term n fifo m i = some (fifo', m', i + k) ∧
      Taken fifo m (str + i) (len - i) term k fifo' m' := by
  induction n generalizing fifo m i with
  | zero => exact absurd hn (Nat.not_lt_zero _)
  | succ n ih =>
    rw [tokenLoop]
    by_cases hcount : fifo.fifoCount = 0
    · rw [fifoGetc_empty hcount, if_neg (fun hgo : (0 : UInt8) ≠ 0 ∧ _ => hgo.1 rfl)]
      exact ⟨0, fifo, m, rfl, Taken.of_empty hcount m _ _ term⟩
    · obtain ⟨x, hgetc, hc, hsucc, hwords⟩ := h.fifoGetc hcount
      rw [hgetc]
      dsimp only
      by_cases hgo : x ≠ 0 ∧ x ≠ term ∧ i < len
      · obtain ⟨hzero, hterm, hroom⟩ := hgo
        rw [if_pos ⟨hzero, hterm, hroom⟩, Nat.mod_eq_of_lt (show i + 1 < 2 ^ 8 by omega)]
        obtain ⟨k, fifo', m', hloop, htaken⟩ :=
          ih fifo.tailUp (Function.update m (str + i) x) (i + 1) hwords (by omega) hroom (by omega)
        have hcons := htaken.cons hc hsucc hzero hterm
        rw [show len - (i + 1) + 1 = len - i by omega] at hcons
        rw [show i + 1 + k = i + (k + 1) by omega] at hloop
        exact ⟨k + 1, fifo', m', hloop, hcons⟩
      · rw [if_neg hgo]
        exact ⟨0, fifo.tailUp, m, rfl, Taken.of_stop hc hsucc (by rwa [Nat.sub_pos_iff_lt]) m _⟩

/-- **What `fifo_get_token` does.** -/
theorem Words.fifoGetToken {fifo : FIFO} (h : fifo.Words) (m : ℕ → UInt8) (str len : ℕ) (term : UInt8) :
    (term ∉ fifo.scanned ∧ fifo.fifoGetToken m str len term = some (fifo, memset m str len, 0)) ∨
      term ∈ fifo.scanned ∧ ∃ k fifo' m', fifo.fifoGetToken m str len term = some (fifo', m', k) ∧
        Taken fifo (memset m str len) str len term k fifo' m' := by
  unfold FIFO.fifoGetToken
  by_cases hscan : term ∈ fifo.scanned
  · have hlt : fifo.fifoCount < 2 ^ 8 := Nat.mod_lt _ (Nat.two_pow_pos 8)
    obtain ⟨k, fifo', m', hloop, htaken⟩ :=
      tokenLoop_spec str len term (fifo.fifoCount + 1) fifo (memset m str len) 0 h (Nat.lt_succ_self _) (Nat.zero_le _) (by omega)
    rw [Nat.zero_add] at hloop
    rw [if_pos ((fifo.fifoScanc_iff term).mpr hscan)]
    exact Or.inr ⟨hscan, k, fifo', m', hloop, htaken⟩
  · rw [if_neg (fun hyes => hscan ((fifo.fifoScanc_iff term).mp hyes))]
    exact Or.inl ⟨hscan, rfl⟩

/-! ## When a line is read as it should be -/

theorem memset_inside {m : ℕ → UInt8} {str len q : ℕ} (h : str ≤ q) (h' : q < str + len) : memset m str len q = 0 := if_pos ⟨h, h'⟩

theorem memset_outside {m : ℕ → UInt8} {str len q : ℕ} (h : q < str ∨ str + len ≤ q) : memset m str len q = m q :=
  if_neg fun hin => by omega

/-- The members of the front of a list. -/
theorem mem_take {l : List UInt8} {n : ℕ} {c : UInt8} : c ∈ l.take n ↔ ∃ j, j < n ∧ l[j]? = some c := by
  rw [List.mem_iff_getElem?]
  refine exists_congr fun j => ?_
  rw [List.getElem?_take]
  split
  · simp [*]
  · simp [*]

/-- The first place is in front of every other one. -/
theorem idxOf_le {l : List UInt8} {j : ℕ} {c : UInt8} (h : l[j]? = some c) : l.idxOf c ≤ j := by
  obtain ⟨hj, hc⟩ := List.getElem?_eq_some_iff.mp h
  refine Nat.le_of_not_lt fun hlt => ?_
  have hne : (l[j] == c) = false := List.not_of_lt_findIdx hlt
  rw [hc, beq_self_eq_true] at hne
  cases hne

section Line

variable {fifo fifo' : FIFO} {m m' : ℕ → UInt8} {str len k : ℕ} {term : UInt8}

/-- The terminator is behind the bytes that are stored. -/
theorem Taken.le_idxOf (h : Taken fifo (memset m str len) str len term k fifo' m') (hmem : term ∈ fifo.contents) :
    k ≤ fifo.contents.idxOf term := by
  by_contra hlt
  obtain ⟨c, hget, -, hterm, -⟩ := h.bytes _ (Nat.lt_of_not_le hlt)
  rw [List.getElem?_idxOf hmem] at hget
  exact hterm (Option.some.inj hget).symm

/-- A line that is counted, within the buffer and free of zero bytes is taken whole. -/
theorem Taken.eq_idxOf (h : Taken fifo (memset m str len) str len term k fifo' m') (hmem : term ∈ fifo.contents)
    (hcount : fifo.contents.idxOf term < fifo.fifoCount) (hlen : fifo.contents.idxOf term < len)
    (hzero : 0 ∉ fifo.contents.take (fifo.contents.idxOf term)) : k = fifo.contents.idxOf term := by
  refine Nat.le_antisymm (h.le_idxOf hmem) (Nat.le_of_not_lt fun hlt => ?_)
  rcases h.ended with hroom | hall | ⟨c, hget, rfl | rfl⟩
  · omega
  · omega
  · exact hzero (mem_take.mpr ⟨k, hlt, hget⟩)
  · have hle := idxOf_le hget
    omega

theorem Taken.tokenRead (h : Taken fifo (memset m str len) str len term k fifo' m') (hmem : term ∈ fifo.contents)
    (hcount : fifo.contents.idxOf term < fifo.fifoCount) (hlen : fifo.contents.idxOf term < len)
    (hzero : 0 ∉ fifo.contents.take (fifo.contents.idxOf term)) : TokenRead fifo m str len term fifo' m' := by
  obtain rfl := h.eq_idxOf hmem hcount hlen hzero
  constructor
  · intro _
    rw [h.rest, Nat.min_eq_left hcount]
  · refine fun _ => ⟨_, hlen, fun _ => rfl, fun j hj => ?_, ?_⟩
    · obtain ⟨c, hget, -, -, hm⟩ := h.bytes j hj
      rw [hget, hm]
    · rw [h.frame _ (Or.inr (Nat.le_refl _))]
      exact memset_inside (Nat.le_add_right _ _) (by omega)
  · exact fun hnot => absurd hmem hnot
  · intro q hq
    rw [h.frame q (by omega)]
    exact memset_outside hq

/-- A line that is read as it should be has been counted, fits, and has no zero byte. -/
theorem Taken.of_tokenRead (h : Taken fifo (memset m str len) str len term k fifo' m')
    (hread : TokenRead fifo m str len term fifo' m') (hmem : term ∈ fifo.contents) :
    fifo.contents.idxOf term < fifo.fifoCount ∧ fifo.contents.idxOf term < len ∧
      0 ∉ fifo.contents.take (fifo.contents.idxOf term) := by
  have hle := h.le_idxOf hmem
  have hidx := List.idxOf_lt_length_of_mem hmem
  have hcount := fifo.fifoCount_le
  -- Both sides are what is left of the same list, so as many bytes are gone.
  have hgone : min (k + 1) fifo.fifoCount = fifo.contents.idxOf term + 1 := by
    have hlength := congrArg List.length (h.rest.symm.trans (hread.consumed hmem))
    rw [List.length_drop, List.length_drop] at hlength
    omega
  have hk : k = fifo.contents.idxOf term := by omega
  refine ⟨by omega, ?_, ?_⟩
  · by_contra hlen
    obtain ⟨j, hj, -, -, hnul⟩ := hread.delivered hmem
    obtain ⟨c, -, hzero, -, hm⟩ := h.bytes j (by omega)
    exact hzero (hm.symm.trans hnul)
  · intro hzero
    obtain ⟨j, hj, hget⟩ := mem_take.mp hzero
    obtain ⟨c, hget', hne, -, -⟩ := h.bytes j (by omega)
    exact hne (Option.some.inj (hget'.symm.trans hget))

end Line

/-- **A line is read as it should be if and only if** the scan sees the terminator where there is one, and then the bytes up to it
are all counted, fit into the buffer together with a NUL, and have no zero byte among them. -/
theorem fifo_get_token_iff (fifo : FIFO) (m : ℕ → UInt8) (str len : ℕ) (term : UInt8) (hhead : fifo.head < 2 ^ 32)
    (htail : fifo.tail < 2 ^ 32) :
    (∃ fifo' m' i, fifo.fifoGetToken m str len term = some (fifo', m', i) ∧ TokenRead fifo m str len term fifo' m') ↔
      fifo.Readable len term := by
  rcases (Words.mk hhead htail).fifoGetToken m str len term with ⟨hscan, hrun⟩ | ⟨hscan, k, fifo₁, m₁, hrun, htaken⟩
  · -- Without a terminator in sight, nothing happens to the FIFO.
    constructor
    · rintro ⟨fifo', m', i, h, hread⟩
      rw [hrun] at h
      cases h
      have hnot : term ∉ fifo.contents := by
        intro hmem
        have hidx := List.idxOf_lt_length_of_mem hmem
        have hlength := congrArg List.length (hread.consumed hmem)
        rw [List.length_drop] at hlength
        omega
      exact ⟨iff_of_false hscan hnot, fun hmem => absurd hmem hnot⟩
    · rintro ⟨hiff, -⟩
      have hnot : term ∉ fifo.contents := fun hmem => hscan (hiff.mpr hmem)
      exact ⟨fifo, _, 0, hrun, fun hmem => absurd hmem hnot, fun hmem => absurd hmem hnot, fun _ => rfl,
        fun q hq => memset_outside hq⟩
  · constructor
    · rintro ⟨fifo', m', i, h, hread⟩
      rw [hrun] at h
      cases h
      have hmem : term ∈ fifo.contents := by
        by_contra hnot
        have hpos : 0 < fifo.fifoCount := by
          have hlength := List.length_pos_of_mem hscan
          rwa [scanned, Counters.window_length] at hlength
        have hcount := fifo.fifoCount_le
        have hlength := congrArg List.length htaken.rest
        rw [hread.kept hnot, List.length_drop] at hlength
        omega
      exact ⟨iff_of_true hscan hmem, fun _ => htaken.of_tokenRead hread hmem⟩
    · rintro ⟨hiff, hline⟩
      have hmem := hiff.mp hscan
      obtain ⟨hcount, hlen, hzero⟩ := hline hmem
      exact ⟨fifo₁, m₁, k, hrun, htaken.tokenRead hmem hcount hlen hzero⟩

/-- The shell's FIFO with the lines `get` and `x`. -/
def twoLines : FIFO where
  head := 6
  tail := 0
  buffer := fun i => [103, 101, 116, 13, 120, 13].getD i 0
  bufferLen := 256

/-- Read into 4 bytes, the first line is read as it should be. -/
theorem fifo_get_token_twoLines : twoLines.Readable 4 13 ∧
    ∃ fifo' m' i, twoLines.fifoGetToken (fun _ => 0) 0 4 13 = some (fifo', m', i) ∧ TokenRead twoLines (fun _ => 0) 0 4 13 fifo' m' :=
  ⟨by decide, (fifo_get_token_iff twoLines (fun _ => 0) 0 4 13 (by decide) (by decide)).mpr (by decide)⟩

/-- Read into 2 bytes, its last byte is lost, and the terminator is still there. -/
theorem fifo_get_token_short : ¬∀ (fifo : FIFO) (m : ℕ → UInt8) (str len : ℕ) (term : UInt8), fifo.head < 2 ^ 32 → fifo.tail < 2 ^ 32 →
    0 < len → ∃ fifo' m' i, fifo.fifoGetToken m str len term = some (fifo', m', i) ∧ TokenRead fifo m str len term fifo' m' := by
  intro h
  obtain ⟨fifo', m', i, hrun, hread⟩ := h twoLines (fun _ => 0) 0 2 13 (by decide) (by decide) (by decide)
  have hleft : (twoLines.fifoGetToken (fun _ => 0) 0 2 13).map (fun r => r.1.contents) = some [13, 120, 13] := by decide
  rw [hrun] at hleft
  have hconsumed := (Option.some.inj hleft).symm.trans (hread.consumed (by decide))
  revert hconsumed
  decide

end FIFO

end CoreLink.Shell
