/-
# `CoreLink.RtThread.DfsPathBytes` — `dfs_normalize_path` on its block of memory.

`CoreLink.RtThread.DfsPath` has the path that is read and the path that is written as two lists. Here the function works on
the block that it allocates, with `src` and `dst` as offsets and each access checked. The two agree (`loop_sim`), except that an
empty path makes the end of the function read the byte before the block. From this follows when the result is the one that
the resolved names give: a single `..` that goes up from the root is enough to spoil it (`dfs_normalize_path_canonical`).
-/
import CoreLink.Lib.InPlace
import CoreLink.RtThread.DfsPath

namespace CoreLink.RtThread

open CoreLink.Lib CoreLink.Lib.InPlace

namespace DfsPathBytes

/-! ## The function -/

/-- `while ((c = *src++) != '\0' && c != '/') *dst ++ = c;` -/
def copyName : ℕ → List Char → ℤ → ℤ → Except Fault (Char × List Char × ℤ × ℤ)
  | 0, _, _, _ => .error .fuel
  | fuel + 1, m, src, dst => do
    let c ← read m src
    if c ≠ '\x00' ∧ c ≠ '/' then
      let m ← write m dst c
      copyName fuel m (src + 1) (dst + 1)
    else .ok (c, m, src + 1, dst)

/-- `while (c == '/') c = *src++;` -/
def skipCopied (m : List Char) : ℕ → Char → ℤ → Except Fault ℤ
  | 0, _, _ => .error .fuel
  | fuel + 1, c, src =>
    if c = '/' then do
      let c ← read m src
      skipCopied m fuel c (src + 1)
    else .ok src

/-- `while ((*src == '/') && (*src != '\0')) src ++;` -/
def skipSeps (m : List Char) : ℕ → ℤ → Except Fault ℤ
  | 0, _ => .error .fuel
  | fuel + 1, src => do
    let c ← read m src
    if c = '/' ∧ c ≠ '\x00' then skipSeps m fuel (src + 1) else .ok src

/-- `while (dst0 < dst && dst[-1] != '/') dst --;` -/
def backUp (m : List Char) : ℕ → ℤ → Except Fault ℤ
  | 0, _ => .error .fuel
  | fuel + 1, dst =>
    if 0 < dst then do
      let c ← read m (dst - 1)
      if c ≠ '/' then backUp m fuel (dst - 1) else .ok dst
    else .ok dst

/-- How a round of the loop ends: with the next round, with a `break`, or with the return of `NULL`. -/
inductive Round where
  | again (m : List Char) (src dst : ℤ)
  | done (m : List Char) (dst : ℤ)
  | null

/-- The lower part of a round. -/
def copyRound (m : List Char) (src dst : ℤ) : Except Fault Round := do
  let (c, m, src, dst) ← copyName (m.length + 1) m src dst
  if c = '/' then
    let m ← write m dst '/'
    let src ← skipCopied m (m.length + 2) c src
    .ok (.again m (src - 1) (dst + 1))
  else if c = '\x00' then .ok (.done m dst)
  else .ok (.again m src dst)

/-- At `up_one`. -/
def upRound (m : List Char) (src dst : ℤ) : Except Fault Round :=
  if dst - 1 < 0 then .ok .null
  else do
    let dst ← backUp m (m.length + 1) (dst - 1)
    .ok (.again m src dst)

/-- A round of the loop. -/
def round (m : List Char) (src dst : ℤ) : Except Fault Round := do
  let c ← read m src
  if c = '.' then
    let c1 ← read m (src + 1)
    if c1 = '\x00' then copyRound m (src + 1) dst
    else if c1 = '/' then
      let src ← skipSeps m (m.length + 1) (src + 2)
      .ok (.again m src dst)
    else if c1 = '.' then
      let c2 ← read m (src + 2)
      if c2 = '\x00' then upRound m (src + 2) dst
      else if c2 = '/' then
        let src ← skipSeps m (m.length + 1) (src + 3)
        upRound m src dst
      else copyRound m src dst
    else copyRound m src dst
  else copyRound m src dst

/-- The loop. -/
def loop : ℕ → List Char → ℤ → ℤ → Except Fault (Option (List Char × ℤ))
  | 0, _, _, _ => .error .fuel
  | fuel + 1, m, src, dst => do
    match ← round m src dst with
    | .again m src dst => loop fuel m src dst
    | .done m dst => .ok (some (m, dst))
    | .null => .ok none

/-- The end is written, and a separator before it goes. -/
def cutSep (m : List Char) (dst : ℤ) : Except Fault (List Char) := do
  let m ← write m dst '\x00'
  let dst := dst - 1
  if dst ≠ 0 then
    let c ← read m dst
    if c = '/' then write m dst '\x00' else .ok m
  else .ok m

/-- The final check for an empty path. What is returned is the string at the beginning of the block. -/
def finalCheck (m : List Char) : Except Fault (List Char) := do
  let c ← read m 0
  if c = '\x00' then
    let m ← write m 0 '/'
    let m ← write m 1 '\x00'
    .ok (m.takeWhile (· ≠ '\x00'))
  else .ok (m.takeWhile (· ≠ '\x00'))

/-- The end of the function. -/
def finish (m : List Char) (dst : ℤ) : Except Fault (List Char) := do
  let m ← cutSep m dst
  finalCheck m

/-- What is done with the block, which holds the path and its end. -/
def normalizeBlock (path : List Char) : Except Fault (Option (List Char)) := do
  let m := path ++ ['\x00']
  match ← loop m.length m 0 0 with
  | none => .ok none
  | some (m, dst) => do
    let full ← finish m dst
    .ok (some full)

/-! ## The loops inside -/

variable {m done gap rest path : List Char} {src dst : ℤ} {fuel : ℕ}

/-- A name is copied up to the separator or the end, which is read too. -/
theorem copyName_spec (hrest : '\x00' ∉ rest) (h : Holds m src dst done gap (rest ++ ['\x00']))
    (hfuel : rest.length < fuel) :
    ∃ c r m' src' dst' g gap', rest.dropWhile (· ≠ '/') ++ ['\x00'] = c :: r ∧
      copyName fuel m src dst = .ok (c, m', src', dst') ∧
      Holds m' src' dst' ((rest.takeWhile (· ≠ '/')).reverse ++ done) (g :: gap') r := by
  obtain ⟨fuel, rfl⟩ : ∃ n, fuel = n + 1 := ⟨fuel - 1, by omega⟩
  induction rest generalizing fuel m src dst done gap with
  | nil =>
    obtain ⟨g, gap', hgap⟩ := List.exists_cons_of_ne_nil (List.append_ne_nil_of_right_ne_nil gap
      (List.cons_ne_nil '\x00' []))
    refine ⟨'\x00', [], m, src + 1, dst, g, gap', rfl, ?_, hgap ▸ h.advance⟩
    unfold copyName
    rw [h.read_src]
    rfl
  | cons x rest ih =>
    obtain ⟨g, gap', hgap⟩ := List.exists_cons_of_ne_nil (List.append_ne_nil_of_right_ne_nil gap
      (List.cons_ne_nil x []))
    have hx : x ≠ '\x00' := fun hx => hrest (hx ▸ List.mem_cons_self)
    have hadv := h.advance
    unfold copyName
    rw [h.read_src]
    by_cases hsep : x = '/'
    · subst hsep
      refine ⟨'/', rest ++ ['\x00'], m, src + 1, dst, g, gap', rfl, ?_, hgap ▸ hadv⟩
      rfl
    · rw [hgap] at hadv
      obtain ⟨m', hwrite, hholds⟩ := hadv.write_dst x
      rw [List.length_cons] at hfuel
      obtain ⟨fuel, rfl⟩ : ∃ n, fuel = n + 1 := ⟨fuel - 1, by omega⟩
      obtain ⟨c, r, m'', src', dst', g', gap'', hcons, hcopy, hholds'⟩ := ih
        (fun hm => hrest (List.mem_cons_of_mem _ hm)) hholds fuel (by omega)
      have htake : (x :: rest).takeWhile (· ≠ '/') = x :: rest.takeWhile (· ≠ '/') :=
        List.takeWhile_cons_of_pos (decide_eq_true hsep)
      have hdrop : (x :: rest).dropWhile (· ≠ '/') = rest.dropWhile (· ≠ '/') :=
        List.dropWhile_cons_of_pos (decide_eq_true hsep)
      refine ⟨c, r, m'', src', dst', g', gap'', by rw [hdrop, hcons], ?_, ?_⟩
      · show (if x ≠ '\x00' ∧ x ≠ '/' then _ else _) = _
        rw [if_pos ⟨hx, hsep⟩, hwrite]
        exact hcopy
      · rw [htake, List.reverse_cons, List.append_assoc]
        exact hholds'

/-- The separators are skipped; what is behind them is read again. -/
theorem skipCopied_spec (h : Holds m src dst done gap (rest ++ ['\x00'])) (hfuel : rest.length + 1 < fuel) :
    ∃ src' gap', skipCopied m fuel '/' src = .ok src' ∧
      Holds m (src' - 1) dst done gap' (rest.dropWhile (· = '/') ++ ['\x00']) := by
  obtain ⟨fuel, rfl⟩ : ∃ n, fuel = n + 2 := ⟨fuel - 2, by omega⟩
  have hstop : ∀ (c : Char), c ≠ '/' → read m src = .ok c → skipCopied m (fuel + 2) '/' src = .ok (src + 1) := by
    intro c hc hread
    rw [skipCopied, if_pos rfl, hread]
    exact if_neg hc
  induction rest generalizing fuel src gap with
  | nil =>
    refine ⟨src + 1, gap, hstop '\x00' (by decide) h.read_src, ?_⟩
    rw [show src + 1 - 1 = src by omega]
    exact h
  | cons x rest ih =>
    by_cases hx : x = '/'
    · subst hx
      rw [List.length_cons] at hfuel
      obtain ⟨fuel, rfl⟩ : ∃ n, fuel = n + 1 := ⟨fuel - 1, by omega⟩
      have hstop' : ∀ (c : Char), c ≠ '/' → read m (src + 1) = .ok c →
          skipCopied m (fuel + 2) '/' (src + 1) = .ok (src + 1 + 1) := by
        intro c hc hread
        rw [skipCopied, if_pos rfl, hread]
        exact if_neg hc
      obtain ⟨src', gap', hskip, hholds⟩ := ih h.advance fuel (by omega) hstop'
      refine ⟨src', gap', ?_, ?_⟩
      · rw [skipCopied, if_pos rfl, h.read_src]
        exact hskip
      · exact hholds
    · refine ⟨src + 1, gap, hstop x hx h.read_src, ?_⟩
      rw [show src + 1 - 1 = src by omega, List.dropWhile_cons_of_neg (by simpa using hx)]
      exact h

theorem skipSeps_spec (h : Holds m src dst done gap (rest ++ ['\x00'])) (hfuel : rest.length < fuel) :
    ∃ src' gap', skipSeps m fuel src = .ok src' ∧
      Holds m src' dst done gap' (rest.dropWhile (· = '/') ++ ['\x00']) := by
  obtain ⟨fuel, rfl⟩ : ∃ n, fuel = n + 1 := ⟨fuel - 1, by omega⟩
  induction rest generalizing fuel src gap with
  | nil =>
    refine ⟨src, gap, ?_, h⟩
    rw [skipSeps, h.read_src]
    rfl
  | cons x rest ih =>
    by_cases hx : x = '/'
    · subst hx
      rw [List.length_cons] at hfuel
      obtain ⟨fuel, rfl⟩ : ∃ n, fuel = n + 1 := ⟨fuel - 1, by omega⟩
      obtain ⟨src', gap', hskip, hholds⟩ := ih h.advance fuel (by omega)
      refine ⟨src', gap', ?_, ?_⟩
      · rw [skipSeps, h.read_src]
        exact hskip
      · exact hholds
    · refine ⟨src, gap, ?_, ?_⟩
      · rw [skipSeps, h.read_src]
        exact if_neg fun hc => hx hc.1
      · rw [List.dropWhile_cons_of_neg (by simpa using hx)]
        exact h

/-- Back to the separator before the name, or to the beginning. -/
theorem backUp_spec (h : Holds m src dst done gap rest) (hfuel : done.length < fuel) :
    ∃ dst' gap', backUp m fuel dst = .ok dst' ∧ Holds m src dst' (done.dropWhile (· ≠ '/')) gap' rest := by
  obtain ⟨fuel, rfl⟩ : ∃ n, fuel = n + 1 := ⟨fuel - 1, by omega⟩
  induction done generalizing fuel dst gap with
  | nil =>
    refine ⟨dst, gap, ?_, h⟩
    have hdst : dst = 0 := h.dst
    rw [backUp, if_neg (by omega)]
  | cons x done ih =>
    have hdst : 0 < dst := by
      rw [h.dst, List.length_cons]
      omega
    by_cases hx : x = '/'
    · subst hx
      refine ⟨dst, gap, ?_, h⟩
      rw [backUp, if_pos hdst, h.read_back]
      rfl
    · rw [List.length_cons] at hfuel
      obtain ⟨fuel, rfl⟩ : ∃ n, fuel = n + 1 := ⟨fuel - 1, by omega⟩
      obtain ⟨dst', gap', hback, hholds⟩ := ih h.back fuel (by omega)
      refine ⟨dst', gap', ?_, ?_⟩
      · rw [backUp, if_pos hdst, h.read_back]
        exact (if_pos hx).trans hback
      · rw [List.dropWhile_cons_of_pos (by simpa using hx)]
        exact hholds

/-! ## A round, and the loop -/

/-- What a round does, with what is still to be read and what has been written as lists. -/
inductive Sim (rest done : List Char) : Round → Prop where
  | again {m : List Char} {src dst : ℤ} {done' gap rest' : List Char} (holds : Holds m src dst done' gap (rest' ++ ['\x00']))
      (string : '\x00' ∉ rest') (written : '\x00' ∉ done') (shorter : rest'.length < rest.length)
      (same : ∀ fuel, normLoop (fuel + 1) rest done = normLoop fuel rest' done') : Sim rest done (.again m src dst)
  | done {m : List Char} {src dst : ℤ} {done' gap : List Char} {g : Char} (holds : Holds m src dst done' (g :: gap) [])
      (written : '\x00' ∉ done') (same : ∀ fuel, normLoop (fuel + 1) rest done = some done') : Sim rest done (.done m dst)
  | null (same : ∀ fuel, normLoop (fuel + 1) rest done = none) : Sim rest done .null

theorem mem_of_dropWhile {p : Char → Bool} {c : Char} (h : c ∈ rest.dropWhile p) : c ∈ rest :=
  (List.dropWhile_sublist p).subset h

theorem notMem_copied {c : Char} (hrest : c ∉ rest) (hdone : c ∉ done) :
    c ∉ (rest.takeWhile (· ≠ '/')).reverse ++ done := by
  intro hm
  rcases List.mem_append.mp hm with hm | hm
  · exact hrest ((List.takeWhile_sublist _).subset (List.mem_reverse.mp hm))
  · exact hdone hm

variable (rest) in
/-- The lower part, for whatever component the model copies too. -/
theorem copyRound_sim (h : Holds m src dst done gap (rest ++ ['\x00'])) (hrest : '\x00' ∉ rest) (hdone : '\x00' ∉ done)
    {start : List Char} (hstart : rest.length ≤ start.length)
    (hdot : ∀ fuel, normLoop (fuel + 1) start done =
      match rest.dropWhile (· ≠ '/') with
      | [] => some ((rest.takeWhile (· ≠ '/')).reverse ++ done)
      | _ :: src => normLoop fuel (src.dropWhile (· = '/')) ('/' :: ((rest.takeWhile (· ≠ '/')).reverse ++ done))) :
    ∃ r, copyRound m src dst = .ok r ∧ Sim start done r := by
  have hlen : rest.length < m.length + 1 := by
    rw [h.length, List.length_append]
    omega
  obtain ⟨c, r, m', src', dst', g, gap', hcons, hcopy, hholds⟩ := copyName_spec hrest h hlen
  have hwritten : '\x00' ∉ (rest.takeWhile (· ≠ '/')).reverse ++ done := notMem_copied hrest hdone
  unfold copyRound
  rw [hcopy]
  cases hdrop : rest.dropWhile (· ≠ '/') with
  | nil =>
    rw [hdrop] at hcons
    obtain ⟨rfl, rfl⟩ := List.cons.inj hcons
    refine ⟨.done m' dst', rfl, .done hholds hwritten fun fuel => ?_⟩
    rw [hdot, hdrop]
  | cons x tail =>
    have hx : x = '/' := by
      have hnot := List.head?_dropWhile_not (· ≠ '/') rest
      rw [hdrop] at hnot
      exact not_not.mp (of_decide_eq_false hnot)
    rw [hdrop] at hcons
    obtain ⟨rfl, rfl⟩ := List.cons.inj hcons
    subst hx
    obtain ⟨m'', hwrite, hholds'⟩ := hholds.write_dst '/'
    have hlen' : tail.length + 1 < m''.length + 2 := by
      have htail : (tail ++ ['\x00']).length = tail.length + 1 := List.length_append
      rw [hholds'.length]
      show _ < _ + (tail ++ ['\x00']).length + 2
      omega
    obtain ⟨src'', gap'', hskip, hholds''⟩ := skipCopied_spec hholds' hlen'
    have htail : '\x00' ∉ tail := fun hm => hrest (mem_of_dropWhile (hdrop ▸ List.mem_cons_of_mem _ hm))
    refine ⟨.again m'' (src'' - 1) (dst' + 1), ?_, .again hholds'' (fun hm => htail (mem_of_dropWhile hm)) ?_ ?_ ?_⟩
    · show (write m' dst' '/' >>= fun m => skipCopied m (m.length + 2) '/' src' >>= _) = _
      rw [hwrite]
      show (skipCopied m'' (m''.length + 2) '/' src' >>= _) = _
      rw [hskip]
      rfl
    · intro hm
      rcases List.mem_cons.mp hm with hm | hm
      · exact absurd hm (by decide)
      · exact hwritten hm
    · have h₁ := (List.dropWhile_sublist (· = '/') (l := tail)).length_le
      have h₂ := (List.dropWhile_sublist (· ≠ '/') (l := rest)).length_le
      rw [hdrop, List.length_cons] at h₂
      omega
    · intro fuel
      rw [hdot, hdrop]

variable (rest) in
/-- The part at `up_one`. -/
theorem upRound_sim (h : Holds m src dst done gap (rest ++ ['\x00'])) (hrest : '\x00' ∉ rest) (hdone : '\x00' ∉ done)
    {start : List Char} (hstart : rest.length < start.length)
    (hup : ∀ fuel, normLoop (fuel + 1) start done = (upOne done).bind fun dst => normLoop fuel rest dst) :
    ∃ r, upRound m src dst = .ok r ∧ Sim start done r := by
  unfold upRound
  cases done with
  | nil =>
    have hdst : dst = 0 := h.dst
    exact ⟨.null, if_pos (by omega), .null fun fuel => hup fuel⟩
  | cons x done =>
    have hdst : ¬dst - 1 < 0 := by
      rw [h.dst, List.length_cons]
      omega
    have hlen : done.length < m.length + 1 := by
      rw [h.length, List.length_cons]
      omega
    obtain ⟨dst', gap', hback, hholds⟩ := backUp_spec h.back hlen
    refine ⟨.again m src dst', ?_, .again hholds hrest ?_ hstart fun fuel => hup fuel⟩
    · rw [if_neg hdst, hback]
      rfl
    · exact fun hm => hdone (List.mem_cons_of_mem _ (mem_of_dropWhile hm))

/-- What the model does with any other component. -/
theorem normLoop_copy (hdot : rest ≠ ['.']) (hdotSep : ∀ r, rest ≠ '.' :: '/' :: r) (hdots : rest ≠ ['.', '.'])
    (hdotsSep : ∀ r, rest ≠ '.' :: '.' :: '/' :: r) :
    normLoop (fuel + 1) rest done =
      match rest.dropWhile (· ≠ '/') with
      | [] => some ((rest.takeWhile (· ≠ '/')).reverse ++ done)
      | _ :: src => normLoop fuel (src.dropWhile (· = '/')) ('/' :: ((rest.takeWhile (· ≠ '/')).reverse ++ done)) := by
  rw [normLoop] <;> first
    | rfl
    | assumption

/-- **A round** does on the block what it does on the lists. -/
theorem round_sim (h : Holds m src dst done gap (rest ++ ['\x00'])) (hrest : '\x00' ∉ rest) (hdone : '\x00' ∉ done) :
    ∃ r, round m src dst = .ok r ∧ Sim rest done r := by
  have hlen : ∀ {src gap r}, Holds m src dst done gap (r ++ ['\x00']) → r.length < m.length + 1 := by
    intro src gap r h
    rw [h.length, List.length_append]
    omega
  have hle : ∀ r : List Char, (r.dropWhile (· = '/')).length ≤ r.length := fun r => (List.dropWhile_sublist _).length_le
  unfold round
  cases rest with
  | nil =>
    rw [h.read_src]
    exact copyRound_sim _ h hrest hdone (Nat.le_refl _) fun fuel => rfl
  | cons x rest =>
    obtain ⟨-, hrest₁⟩ := not_or.mp (List.mem_cons.not.mp hrest)
    by_cases hx : x = '.'
    case neg =>
      have hread : read m src = .ok x := h.read_src
      rw [hread]
      show ∃ r, (if x = '.' then _ else _) = _ ∧ _
      rw [if_neg hx]
      exact copyRound_sim _ h hrest hdone (Nat.le_refl _) fun fuel => normLoop_copy (by simp [hx]) (by simp [hx])
        (by simp [hx]) (by simp [hx])
    subst hx
    have h₁ := h.advance
    rw [h.read_src]
    show ∃ r, (read m (src + 1) >>= _) = _ ∧ _
    cases rest with
    | nil =>
      -- `.` at the end
      rw [h₁.read_src]
      exact copyRound_sim [] h₁ nofun hdone (Nat.zero_le _) fun fuel => rfl
    | cons y rest =>
      obtain ⟨hy₀, hrest₂⟩ := not_or.mp (List.mem_cons.not.mp hrest₁)
      have h₂ := h₁.advance
      rw [show src + 1 + 1 = src + 2 by omega] at h₂
      have hread₁ : read m (src + 1) = .ok y := h₁.read_src
      rw [hread₁]
      show ∃ r, (if y = '\x00' then _ else if y = '/' then _ else if y = '.' then _ else _) = _ ∧ _
      rw [if_neg (Ne.symm hy₀)]
      by_cases hy : y = '/'
      · -- `./`
        subst hy
        obtain ⟨src', gap', hskip, hholds⟩ := skipSeps_spec h₂ (hlen h₂)
        rw [if_pos rfl, hskip]
        refine ⟨.again m src' dst, rfl, .again hholds (fun hm => hrest₂ (mem_of_dropWhile hm)) hdone ?_ fun fuel => rfl⟩
        have := hle rest
        rw [List.length_cons, List.length_cons]
        omega
      rw [if_neg hy]
      by_cases hy' : y = '.'
      case neg =>
        rw [if_neg hy']
        exact copyRound_sim _ h hrest hdone (Nat.le_refl _) fun fuel => normLoop_copy (by simp) (by simp [hy])
          (by simp [hy']) (by simp [hy'])
      subst hy'
      rw [if_pos rfl]
      cases rest with
      | nil =>
        -- `..` at the end
        rw [h₂.read_src]
        exact upRound_sim [] h₂ nofun hdone (Nat.zero_lt_succ _) fun fuel => rfl
      | cons z rest =>
        obtain ⟨hz₀, hrest₃⟩ := not_or.mp (List.mem_cons.not.mp hrest₂)
        have h₃ := h₂.advance
        rw [show src + 2 + 1 = src + 3 by omega] at h₃
        have hread₂ : read m (src + 2) = .ok z := h₂.read_src
        rw [hread₂]
        show ∃ r, (if z = '\x00' then _ else if z = '/' then _ else _) = _ ∧ _
        rw [if_neg (Ne.symm hz₀)]
        by_cases hz : z = '/'
        · -- `../`
          subst hz
          obtain ⟨src', gap', hskip, hholds⟩ := skipSeps_spec h₃ (hlen h₃)
          rw [if_pos rfl, hskip]
          refine upRound_sim _ hholds (fun hm => hrest₃ (mem_of_dropWhile hm)) hdone ?_ fun fuel => rfl
          have := hle rest
          rw [List.length_cons, List.length_cons, List.length_cons]
          omega
        · rw [if_neg hz]
          exact copyRound_sim _ h hrest hdone (Nat.le_refl _) fun fuel => normLoop_copy (by simp) (by simp) (by simp)
            (by simp [hz])

/-- **The loop** ends, and has then written what the model writes. -/
theorem loop_sim (h : Holds m src dst done gap (rest ++ ['\x00'])) (hrest : '\x00' ∉ rest) (hdone : '\x00' ∉ done)
    (hfuel : rest.length < fuel) :
    (normLoop fuel rest done = none → loop fuel m src dst = .ok none) ∧
      ∀ done', normLoop fuel rest done = some done' → ∃ m' src' dst' g gap', loop fuel m src dst = .ok (some (m', dst')) ∧
        Holds m' src' dst' done' (g :: gap') [] ∧ '\x00' ∉ done' := by
  induction fuel generalizing m src dst done gap rest with
  | zero => exact absurd hfuel (Nat.not_lt_zero _)
  | succ fuel ih =>
    obtain ⟨r, hround, hsim⟩ := round_sim h hrest hdone
    rw [loop, hround]
    cases hsim with
    | again holds string written shorter same =>
      rw [same fuel]
      exact ih holds string written (by omega)
    | done holds written same =>
      rw [same fuel]
      refine ⟨nofun, fun done' hsome => ?_⟩
      obtain rfl := Option.some.inj hsome
      exact ⟨_, _, _, _, _, rfl, holds, written⟩
    | null same =>
      rw [same fuel]
      exact ⟨fun _ => rfl, nofun⟩

/-! ## The end -/

/-- The string that the block holds at the end. -/
theorem finalCheck_spec {s r : List Char} (hs : s ≠ []) (hstring : '\x00' ∉ s) :
    finalCheck (s ++ '\x00' :: r) = .ok s := by
  have hpos : ∀ x ∈ s, decide (x ≠ '\x00') = true := fun x hx => decide_eq_true fun hc => hstring (hc ▸ hx)
  have htake : (s ++ '\x00' :: r).takeWhile (· ≠ '\x00') = s := by
    rw [List.takeWhile_append_of_pos hpos, List.takeWhile_cons_of_neg (by decide), List.append_nil]
  obtain ⟨c, t, hct⟩ := List.exists_cons_of_ne_nil hs
  have hc : c ≠ '\x00' := fun hc => hstring (by rw [hct, hc]; exact List.mem_cons_self)
  have hread : read (s ++ '\x00' :: r) 0 = .ok c := by
    rw [hct]
    rfl
  unfold finalCheck
  rw [hread]
  exact (if_neg hc).trans (congrArg Except.ok htake)

/-- When something has been written, the end of the function makes of it what the model makes. -/
theorem finish_spec {g : Char} (h : Holds m src dst done (g :: gap) []) (hne : done ≠ []) (hdone : '\x00' ∉ done) :
    finish m dst = .ok (normFinish done) := by
  obtain ⟨m', hwrite, hholds⟩ := h.write_dst '\x00'
  have hback := hholds.back
  rw [show dst + 1 - 1 = dst by omega] at hback
  have hmem : m' = done.reverse ++ '\x00' :: gap := by rw [hback.mem, List.append_nil]
  -- when nothing is cut off
  have hkeep : (∃ r, normFinish done = done.reverse ∧ cutSep m dst = .ok r ∧ r = m') → finish m dst = .ok (normFinish done) := by
    rintro ⟨r, hfin, hcut, rfl⟩
    unfold finish
    rw [hcut, hfin, hmem]
    exact finalCheck_spec (List.reverse_ne_nil_iff.mpr hne) fun hm => hdone (List.mem_reverse.mp hm)
  cases done with
  | nil => exact absurd rfl hne
  | cons x done =>
    have hread : read m' (dst - 1) = .ok x := hback.read_back
    cases done with
    | nil =>
      have hdst : dst = 1 := h.dst
      refine hkeep ⟨m', ?_, ?_, rfl⟩
      · by_cases hx : x = '/'
        · subst hx
          rfl
        · simp [normFinish]
      · unfold cutSep
        rw [hwrite]
        exact if_neg (by simp [hdst])
    | cons y done =>
      have hdst : dst - 1 ≠ 0 := by
        rw [h.dst, List.length_cons, List.length_cons]
        omega
      have hcut : cutSep m dst = if x = '/' then write m' (dst - 1) '\x00' else .ok m' := by
        unfold cutSep
        rw [hwrite]
        show (if dst - 1 ≠ 0 then (read m' (dst - 1) >>= _) else _) = _
        rw [if_pos hdst, hread]
        rfl
      by_cases hx : x = '/'
      · subst hx
        -- the separator is cut off
        obtain ⟨m'', hwrite', hholds'⟩ := hback.back.write_dst '\x00'
        have hmem' : m'' = (y :: done).reverse ++ '\x00' :: ('\x00' :: gap) := by
          rw [hholds'.mem, List.reverse_cons, List.append_assoc, List.singleton_append, List.append_nil]
        have hfin : normFinish ('/' :: y :: done) = (y :: done).reverse := rfl
        unfold finish
        rw [hcut, if_pos rfl, hwrite', hfin, hmem']
        exact finalCheck_spec (List.reverse_ne_nil_iff.mpr (List.cons_ne_nil y done)) fun hm =>
          hdone (List.mem_cons_of_mem _ (List.mem_reverse.mp hm))
      · refine hkeep ⟨m', by simp [normFinish, hx], ?_, rfl⟩
        rw [hcut, if_neg hx]

/-- When nothing has been written, it reads the byte before the block. -/
theorem finish_outside {g : Char} (h : Holds m src dst [] (g :: gap) []) : finish m dst = .error .outside := by
  obtain ⟨m', hwrite, hholds⟩ := h.write_dst '\x00'
  have hdst : dst = 0 := h.dst
  unfold finish cutSep
  rw [hwrite, hdst]
  rfl

/-- **The block** ends up with what the model writes, if something is written. -/
theorem normalizeBlock_spec (hpath : '\x00' ∉ path) :
    (normLoop (path.length + 1) path [] = none → normalizeBlock path = .ok none) ∧
      (normLoop (path.length + 1) path [] = some [] → normalizeBlock path = .error .outside) ∧
      ∀ done, normLoop (path.length + 1) path [] = some done → done ≠ [] →
        normalizeBlock path = .ok (some (normFinish done)) := by
  have hstart : Holds (path ++ ['\x00']) 0 0 [] [] (path ++ ['\x00']) := Holds.start _
  have hlen : (path ++ ['\x00']).length = path.length + 1 := List.length_append
  obtain ⟨hnone, hsome⟩ := loop_sim hstart hpath nofun (Nat.lt_succ_self path.length)
  unfold normalizeBlock
  dsimp only
  rw [hlen]
  refine ⟨fun h => ?_, fun h => ?_, fun done h hne => ?_⟩
  · rw [hnone h]
    rfl
  · obtain ⟨m, src, dst, g, gap, hloop, hholds, -⟩ := hsome [] h
    rw [hloop]
    show (finish m dst >>= _) = _
    rw [finish_outside hholds]
    rfl
  · obtain ⟨m, src, dst, g, gap, hloop, hholds, hwritten⟩ := hsome done h
    rw [hloop]
    show (finish m dst >>= _) = _
    rw [finish_spec hholds hne hwritten]
    rfl

end DfsPathBytes

/-- `dfs_normalize_path`, as `dfsNormalizePath`, with the accesses to the block checked. -/
def dfsNormalizePathBytes (directory : Option (List Char)) (memory : Bool) (filename : List Char) :
    Except Fault (Option (List Char)) :=
  match fullPath directory filename with
  | none => .ok none
  | some path => if memory then DfsPathBytes.normalizeBlock path else .ok none

/-! ## Going up from the root -/

/-- How many of the components are a `..` that finds no name to take away; the root is above itself. -/
def climbs : List (List Char) → List (List Char) → ℕ
  | _, [] => 0
  | names, c :: cs =>
    if c = Paths.up then
      match names with
      | [] => climbs [] cs + 1
      | _ :: names => climbs names cs
    else climbs (c :: names) cs

/-- The number of `..` in a path that go up from the root. -/
def climbsOf (path : List Char) : ℕ := climbs [] (Paths.components path)

/-- Without the separator at the beginning, no `..` may go up. -/
theorem walk_false_climbs (names cs : List (List Char)) :
    walk false names cs = if climbs names cs = 0 then some (false, cs.foldl Paths.push names) else none := by
  induction cs generalizing names with
  | nil => rfl
  | cons c cs ih =>
    by_cases hc : c = Paths.up
    · cases names with
      | nil => simp only [walk, climbs, if_pos hc, Nat.succ_ne_zero, if_false]
      | cons n names =>
        simp only [walk, climbs, if_pos hc, List.foldl_cons, Paths.push, List.tail_cons]
        exact ih names
    · simp only [walk, climbs, if_neg hc, List.foldl_cons, Paths.push]
      exact ih (c :: names)

/-- With it, one may, and takes it away. -/
theorem walk_true_climbs (names cs : List (List Char)) :
    walk true names cs = if climbs names cs = 0 then some (true, cs.foldl Paths.push names)
      else if climbs names cs = 1 then some (false, cs.foldl Paths.push names) else none := by
  induction cs generalizing names with
  | nil => rfl
  | cons c cs ih =>
    by_cases hc : c = Paths.up
    · cases names with
      | nil =>
        simp only [walk, climbs, if_pos hc, List.foldl_cons, Paths.push, List.tail_nil, Nat.succ_ne_zero, if_false,
          Nat.add_eq_right]
        exact walk_false_climbs [] cs
      | cons n names =>
        simp only [walk, climbs, if_pos hc, List.foldl_cons, Paths.push, List.tail_cons]
        exact ih names
    · simp only [walk, climbs, if_neg hc, List.foldl_cons, Paths.push]
      exact ih (c :: names)

/-- Whether anything has been written, by components. -/
theorem readsOff_nil :
    ReadsOff (fun done => decide (done = [])) fun r : Bool × List (List Char) => decide (r = (false, [])) := by
  constructor
  case written =>
    intro rooted names h
    cases names with
    | nil => cases rooted <;> rfl
    | cons c names =>
      have hne : written rooted (c :: names) ≠ [] := List.cons_ne_nil _ _
      rw [decide_eq_false hne, decide_eq_false (by simp)]
  case name =>
    intro rooted names c h
    have hne : c.reverse ++ written rooted names ≠ [] :=
      List.append_ne_nil_of_left_ne_nil (List.reverse_ne_nil_iff.mpr h.nonempty) _
    rw [decide_eq_false hne, decide_eq_false (by simp)]

/-! ## The result -/

/-- A string of the program. -/
abbrev CString := { s : List Char // '\x00' ∉ s }

/-- What the result for a path is promised to be: `NULL`, and that only if a `..` goes up from the root, or the absolute path
of the names that are left when the components are resolved. -/
structure Canonical (path : List Char) (result : Except Fault (Option (List Char))) : Prop where
  inside : ∃ r, result = .ok r
  null : result = .ok none → 0 < climbsOf path
  full : ∀ full, result = .ok (some full) →
    full = Paths.absolute (Paths.resolve path) ∧ ∀ c ∈ Paths.resolve path, Paths.IsName c

section Rooted

variable {path : List Char}

theorem walk_rooted (hroot : path.head? = some '/') :
    walk (decide (path.head? = some '/')) [] (Paths.components path) =
      if climbsOf path = 0 then some (true, (Paths.resolve path).reverse)
      else if climbsOf path = 1 then some (false, (Paths.resolve path).reverse) else none := by
  rw [decide_eq_true hroot, walk_true_climbs, Paths.resolve, List.reverse_reverse]
  rfl

/-- No `..` goes up from the root: the path is normalized. -/
theorem normalizeBlock_inside (hpath : '\x00' ∉ path) (hroot : path.head? = some '/') (h : climbsOf path = 0) :
    DfsPathBytes.normalizeBlock path = .ok (some (Paths.normalize path)) := by
  have hwalk := walk_rooted hroot
  rw [if_pos h] at hwalk
  obtain ⟨done, hdone, hfin⟩ := Option.map_eq_some_iff.mp (normalize_of_rooted hwalk)
  have hnil := normalize_map readsOff_nil path
  rw [hwalk, hdone] at hnil
  have hne : done ≠ [] := fun hd => by simp [hd] at hnil
  rw [(DfsPathBytes.normalizeBlock_spec hpath).2.2 done hdone hne, hfin]

/-- Two go up: there is no separator left for the second one. -/
theorem normalizeBlock_null (hpath : '\x00' ∉ path) (hroot : path.head? = some '/') (h : 1 < climbsOf path) :
    DfsPathBytes.normalizeBlock path = .ok none := by
  have hwalk := walk_rooted hroot
  rw [if_neg (by omega), if_neg (by omega)] at hwalk
  have hmap := normalize_eq path
  rw [hwalk] at hmap
  exact (DfsPathBytes.normalizeBlock_spec hpath).1 (Option.map_eq_none_iff.mp hmap)

/-- One goes up: either nothing is left, and the byte before the block is read, or the path that comes out is not absolute. -/
theorem normalizeBlock_one (hpath : '\x00' ∉ path) (hroot : path.head? = some '/') (h : climbsOf path = 1) :
    DfsPathBytes.normalizeBlock path = .error .outside ∨
      ∃ full, DfsPathBytes.normalizeBlock path = .ok (some full) ∧ Paths.normalize full ≠ full := by
  obtain ⟨-, houtside, hfull⟩ := DfsPathBytes.normalizeBlock_spec hpath
  have hwalk := walk_rooted hroot
  rw [if_neg (by omega), if_pos h] at hwalk
  have hmap := normalize_eq path
  have hnil := normalize_map readsOff_nil path
  rw [hwalk] at hmap hnil
  obtain ⟨done, hdone, hfin⟩ := Option.map_eq_some_iff.mp hmap
  rw [hdone] at hnil
  have hiff : done = [] ↔ Paths.resolve path = [] := by simpa using hnil
  by_cases hd : done = []
  · exact Or.inl (houtside (by rw [hdone, hd]))
  · right
    refine ⟨normFinish done, hfull done hdone hd, fun hnormal => hd (hiff.mpr ?_)⟩
    have hok := (normal_iff (by rw [hdone]; rfl)).mp hnormal _ hwalk
    exact List.reverse_eq_nil_iff.mp hok

end Rooted

/-- `directory/filename`; an absolute `filename` is used directly. -/
def joined (directory filename : CString) : List Char :=
  if filename.1.head? = some '/' then filename.1 else directory.1 ++ '/' :: filename.1

theorem fullPath_joined (directory filename : CString) :
    fullPath (some directory.1) filename.1 = some (joined directory filename) := by
  unfold fullPath joined
  split <;> rfl

theorem joined_string (directory filename : CString) : '\x00' ∉ joined directory filename := by
  unfold joined
  split
  next => exact filename.2
  next =>
    intro hm
    rcases List.mem_append.mp hm with hm | hm
    · exact directory.2 hm
    · rcases List.mem_cons.mp hm with hm | hm
      · exact absurd hm (by decide)
      · exact filename.2 hm

theorem joined_root {directory : CString} (h : directory.1.head? = some '/') (filename : CString) :
    (joined directory filename).head? = some '/' := by
  unfold joined
  split
  next hf => exact hf
  next => rw [List.head?_append, h, Option.some_or]

/-- **The result is the canonical path** exactly if not one single `..` goes up from the root: it is for none of them, and
`NULL` from two on. When there is no memory the result is `NULL` whatever the path is, so that one must go up. -/
theorem dfs_normalize_path_canonical (directory filename : CString) (h : directory.1.head? = some '/') (memory : Bool) :
    Canonical (joined directory filename) (dfsNormalizePathBytes (some directory.1) memory filename.1) ↔
      (memory = true ∧ climbsOf (joined directory filename) ≠ 1) ∨
        (memory = false ∧ 0 < climbsOf (joined directory filename)) := by
  have hstring := joined_string directory filename
  have hroot := joined_root h filename
  have hresult : dfsNormalizePathBytes (some directory.1) memory filename.1 =
      if memory then DfsPathBytes.normalizeBlock (joined directory filename) else .ok none := by
    unfold dfsNormalizePathBytes
    rw [fullPath_joined]
  rw [hresult]
  generalize joined directory filename = path at hstring hroot
  cases memory with
  | false =>
    have hiff : Canonical path (.ok none) ↔ 0 < climbsOf path :=
      ⟨fun hcan => hcan.null rfl, fun hpos => ⟨⟨none, rfl⟩, fun _ => hpos, fun _ hfull => nomatch hfull⟩⟩
    simpa using hiff
  | true =>
    have hiff : Canonical path (DfsPathBytes.normalizeBlock path) ↔ climbsOf path ≠ 1 := by
      constructor
      · intro hcan hone
        rcases normalizeBlock_one hstring hroot hone with hout | ⟨full, hfull, hnormal⟩
        · obtain ⟨r, hr⟩ := hcan.inside
          exact nomatch hout.symm.trans hr
        · obtain ⟨rfl, hnames⟩ := hcan.full full hfull
          exact hnormal (Paths.normalize_absolute hnames)
      · intro hone
        rcases Nat.lt_or_gt_of_ne hone with hlt | hgt
        · have hzero : climbsOf path = 0 := by omega
          rw [normalizeBlock_inside hstring hroot hzero]
          refine ⟨⟨_, rfl⟩, nofun, fun full hfull => ?_⟩
          obtain rfl := Option.some.inj (Except.ok.inj hfull)
          exact ⟨rfl, fun c hc => Paths.isName_of_mem_resolve hc⟩
        · rw [normalizeBlock_null hstring hroot hgt]
          exact ⟨⟨none, rfl⟩, fun _ => by omega, nofun⟩
    simpa using hiff

/-- From `/a`, the name `b/../../c` is resolved to `/c`. -/
theorem dfs_normalize_path_canonical_run :
    Canonical ['/', 'a', '/', 'b', '/', '.', '.', '/', '.', '.', '/', 'c']
      (dfsNormalizePathBytes (some ['/', 'a']) true ['b', '/', '.', '.', '/', '.', '.', '/', 'c']) :=
  (dfs_normalize_path_canonical ⟨['/', 'a'], by decide⟩ ⟨['b', '/', '.', '.', '/', '.', '.', '/', 'c'], by decide⟩ rfl
    true).mpr (Or.inl ⟨rfl, by decide⟩)

/-- In the root, `../a` becomes `a`, which is not absolute, and `..` makes the function read the byte before its block. -/
theorem dfs_normalize_path_climbs :
    dfsNormalizePathBytes (some ['/']) true ['.', '.', '/', 'a'] = .ok (some ['a']) ∧
      dfsNormalizePathBytes (some ['/']) true ['.', '.'] = .error .outside ∧
      ¬Canonical ['/', '/', '.', '.', '/', 'a'] (dfsNormalizePathBytes (some ['/']) true ['.', '.', '/', 'a']) ∧
      ¬Canonical ['/', '/', '.', '.'] (dfsNormalizePathBytes (some ['/']) true ['.', '.']) := by
  have hname : dfsNormalizePathBytes (some ['/']) true ['.', '.', '/', 'a'] = .ok (some ['a']) := by decide +kernel
  have hroot : dfsNormalizePathBytes (some ['/']) true ['.', '.'] = .error .outside := by decide +kernel
  refine ⟨hname, hroot, fun hcan => ?_, fun hcan => ?_⟩
  · obtain ⟨hfull, -⟩ := hcan.full _ hname
    exact absurd hfull (by decide)
  · obtain ⟨r, hr⟩ := hcan.inside
    exact nomatch hroot.symm.trans hr

end CoreLink.RtThread
