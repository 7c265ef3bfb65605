/-
# `CoreLink.RtThread.AtClientLines` — the lines of a response, and when `at_obj_exec_cmd` returns them.

`response` says which of the lines that were received behind a command belong to it: those up to the first one that ends
the response. The response object has exactly these lines if

* nothing of an earlier response was left in `client_parser` when the command was sent: a timeout leaves `resp_buf_len` and
  `line_counts` as they are;
* the last line came neither before `line_counts` was set to 0 nor after the command had returned on a notice that another
  response had left behind;
* the lines fit into the buffer: one that does not is left out, and the line that ends the response puts the status right.

If the first one holds, the other two are exact.
-/
import CoreLink.RtThread.AtClient
import Mathlib.Data.List.TakeWhile

namespace CoreLink.RtThread

open CoreLink.Lib

/-! ## Reading -/

section Readline

variable {conf : AtConf} {l : List UInt8}

/-- `at_recv_readline` in the middle of a line: `p` is read, and `q` is not. -/
theorem readlineLoop_good (h : GoodLine conf l) (rest : List UInt8) {p q : List UInt8} (hpq : p ++ q = l ++ [cr, lf])
    (hq : q ≠ []) :
    readlineLoop conf p (p.getLast?.getD 0) false (q ++ rest) = .line (l ++ [cr, lf]) rest := by
  obtain ⟨⟨-, hlen⟩, hend, hsign, hurc⟩ := h
  induction q generalizing p with
  | nil => exact absurd rfl hq
  | cons ch q ih =>
      have hpq' : (p ++ [ch]) ++ q = l ++ [cr, lf] := by rw [← hpq, List.append_assoc, List.singleton_append]
      have hplen : p.length < conf.recvBufsz := by
        have hlens := congrArg List.length hpq
        simp only [List.length_append, List.length_cons, List.length_nil] at hlens
        omega
      have hnone : getUrcObj conf.urcTable (p ++ [ch]) = none := hurc _ ((List.mem_inits _ _).mpr ⟨q, hpq'⟩)
      have hnosign : ¬ (conf.endSign ≠ 0 ∧ ch = conf.endSign) := fun ⟨hne, heq⟩ => hsign hne (by
        rw [← hpq', ← heq]
        simp)
      rw [List.cons_append, readlineLoop, if_pos hplen]
      dsimp only
      cases q with
      | nil =>
          -- the line feed
          have hlast : p ++ [ch] = (l ++ [cr]) ++ [lf] := by simpa using hpq'
          obtain ⟨rfl, hch⟩ := List.append_inj' hlast rfl
          rw [if_pos (.inl ⟨List.singleton_inj.mp hch, by simp⟩), if_neg (by decide), hlast, List.append_assoc]
          rfl
      | cons ch' q =>
          rw [if_neg, ← ih hpq' (List.cons_ne_nil ch' q), List.getLast?_concat, Option.getD_some]
          rintro (⟨rfl, hlast⟩ | hs | hs)
          · -- no end in front of the last one
            have hp : p = p.dropLast ++ [cr] := by
              cases hg : p.getLast? with
              | none =>
                  rw [hg] at hlast
                  exact absurd hlast (by decide)
              | some b =>
                  rw [hg, Option.getD_some] at hlast
                  rw [← hlast]
                  exact (List.dropLast_append_getLast? b hg).symm
            refine hend ?_
            have hpre : p ++ [lf] <+: l ++ [cr] := by
              have hline : l ++ [cr] <+: l ++ [cr, lf] := ⟨[lf], by simp⟩
              refine List.prefix_of_prefix_length_le ⟨_, hpq'⟩ hline ?_
              have hlens := congrArg List.length hpq'
              simp only [List.length_append, List.length_cons, List.length_nil] at hlens ⊢
              omega
            refine List.IsInfix.trans ?_ hpre.isInfix
            rw [hp]
            exact ⟨p.dropLast, [], by simp⟩
          · exact hnosign hs
          · rw [hnone] at hs
            cases hs

/-- **Reading a line.** -/
theorem atRecvReadline_good (h : GoodLine conf l) (rest : List UInt8) :
    atRecvReadline conf (l ++ [cr, lf] ++ rest) = .line (l ++ [cr, lf]) rest :=
  readlineLoop_good h rest (p := []) rfl (by simp)

end Readline

namespace AtResponse

theorem getLineLoop_eq {k n : Nat} (hk : k < n) (lineNum : Nat) (respBuf : List UInt8) :
    getLineLoop (lineNum + k) n lineNum respBuf = nthString 0 k respBuf := by
  induction n generalizing k lineNum respBuf with
  | zero => exact absurd hk (Nat.not_lt_zero k)
  | succ n ih =>
      cases k with
      | zero => exact if_pos rfl
      | succ k =>
          rw [getLineLoop, if_neg (by omega), nthString]
          congr 1
          funext line
          rw [← ih (Nat.lt_of_succ_lt_succ hk) (lineNum + 1), Nat.add_right_comm]
          rfl

/-- **`at_resp_get_line`** walks over the strings in the buffer. -/
theorem atRespGetLine_succ (resp : AtResponse) (i : Nat) :
    resp.atRespGetLine (i + 1) = if i < resp.lineCounts then nthString 0 i resp.buf else none := by
  unfold atRespGetLine
  by_cases hi : i < resp.lineCounts
  · rw [if_neg (by omega), if_pos hi, Nat.add_comm]
    exact getLineLoop_eq hi 1 resp.buf
  · rw [if_pos (by omega), if_neg hi]

end AtResponse

/-! ## The lines of a response -/

/-- A line as `client_parser` stores it. -/
def stored (l : List UInt8) : List UInt8 := l ++ [cr, 0]

/-- Lines in a response buffer. -/
def storedLines (ls : List (List UInt8)) : List UInt8 := pack 0 (ls.map (· ++ [cr]))

/-- **The line ends a response**, for an object with `lineNum`; it is the `n`-th one. -/
def isFinal (lineNum n : Nat) (l : List UInt8) : Bool :=
  (startsWith (stored l) atRespEndOk && lineNum = 0) || endsError (stored l) || (n = lineNum && lineNum ≠ 0)

/-- **The response** in the lines that are received behind a command: those up to the first one that ends it. -/
def responseFrom (lineNum : Nat) : List (List UInt8) → List (List UInt8) → Option (List (List UInt8))
  | _, [] => none
  | seen, l :: ls =>
      if isFinal lineNum (seen.length + 1) l then some (seen ++ [l]) else responseFrom lineNum (seen ++ [l]) ls

def response (lineNum : Nat) (ls : List (List UInt8)) : Option (List (List UInt8)) := responseFrom lineNum [] ls

section Response

variable {lineNum : Nat} {seen ls ls' r : List (List UInt8)} {l : List UInt8}

theorem storedLines_concat : storedLines (ls ++ [l]) = storedLines ls ++ stored l := by
  unfold storedLines stored
  rw [List.map_append, List.map_singleton, pack_concat, List.append_assoc]
  rfl

theorem length_storedLines_le (h : ls <+: ls') : (storedLines ls).length ≤ (storedLines ls').length := by
  obtain ⟨more, rfl⟩ := h
  unfold storedLines
  rw [List.map_append]
  exact length_pack_le_append _ _

theorem prefix_of_responseFrom (h : responseFrom lineNum seen ls = some r) : seen <+: r ∧ seen ≠ r := by
  induction ls generalizing seen with
  | nil => cases h
  | cons l ls ih =>
      unfold responseFrom at h
      split_ifs at h
      · obtain rfl := Option.some.inj h
        exact ⟨List.prefix_append _ _, fun heq => by simpa using congrArg List.length heq⟩
      · obtain ⟨hpre, hne⟩ := ih h
        refine ⟨(List.prefix_append _ _).trans hpre, ?_⟩
        rintro rfl
        have hlen := hpre.length_le
        simp only [List.length_append, List.length_singleton] at hlen
        omega

theorem response_ne_nil (h : response lineNum ls = some r) : r ≠ [] :=
  (prefix_of_responseFrom h).2.symm

/-- What comes behind a response does not belong to it. -/
theorem responseFrom_append (h : responseFrom lineNum seen ls = some r) :
    responseFrom lineNum seen (ls ++ ls') = some r := by
  induction ls generalizing seen with
  | nil => cases h
  | cons l ls ih =>
      rw [responseFrom] at h
      rw [List.cons_append, responseFrom]
      split_ifs at h ⊢
      · exact h
      · exact ih h

theorem responseFrom_append_of_none (h : responseFrom lineNum seen ls = none) :
    responseFrom lineNum seen (ls ++ ls') = responseFrom lineNum (seen ++ ls) ls' := by
  induction ls generalizing seen with
  | nil => rw [List.nil_append, List.append_nil]
  | cons l ls ih =>
      rw [responseFrom] at h
      rw [List.cons_append, responseFrom]
      split_ifs at h ⊢
      rw [ih h, List.append_assoc, List.singleton_append]

end Response

section Stored

variable {resp : AtResponse} {ls ls' : List (List UInt8)}

/-- **The lines that a response object has.** -/
theorem atRespGetLine_stored (hbuf : storedLines ls <+: resp.buf) (hgood : ∀ l ∈ ls, 0 ∉ l)
    (hlen : resp.lineCounts = ls.length) (i : Nat) : resp.atRespGetLine (i + 1) = ls[i]?.map (· ++ [cr]) := by
  obtain ⟨rest, hrest⟩ := hbuf
  rw [AtResponse.atRespGetLine_succ, hlen]
  have hnul : ∀ l ∈ ls.map (· ++ [cr]), (0 : UInt8) ∉ l := fun l hl => by
    obtain ⟨x, hx, rfl⟩ := List.mem_map.mp hl
    have hx0 := hgood x hx
    simp [hx0, cr]
  by_cases hi : i < ls.length
  · rw [if_pos hi, ← hrest]
    unfold storedLines
    rw [nthString_pack hnul rest (by rwa [List.length_map]), List.getElem?_map]
  · rw [if_neg hi, List.getElem?_eq_none (Nat.not_lt.mp hi)]
    rfl

/-- They can be told from what `at_resp_get_line` gives. -/
theorem lines_eq (hbuf : storedLines ls <+: resp.buf) (hgood : ∀ l ∈ ls, 0 ∉ l) (hlen : resp.lineCounts = ls.length)
    (hget : ∀ i, resp.atRespGetLine (i + 1) = ls'[i]?.map (· ++ [cr])) :
    ls = ls' := by
  refine List.ext_getElem? fun i => ?_
  have heq := (atRespGetLine_stored hbuf hgood hlen i).symm.trans (hget i)
  exact Option.map_injective (List.append_left_injective [cr]) heq

end Stored

/-! ## What the parser stores -/

/-- The lines that are stored, and whether a line has ended the response. -/
structure Filled where
  lines : List (List UInt8)
  ended : Bool

/-- A line comes in: it is stored if it fits, and the stored lines are counted. -/
def Filled.next (bufSize lineNum : Nat) (f : Filled) (l : List UInt8) : Filled :=
  if f.ended then f
  else
    let lines := if (storedLines f.lines).length + (stored l).length < bufSize then f.lines ++ [l] else f.lines
    ⟨lines, isFinal lineNum lines.length l⟩

/-- The lines that `client_parser` stores of those that come in, if nothing is left of an earlier response. -/
def filled (bufSize lineNum : Nat) (ls : List (List UInt8)) : Filled := ls.foldl (Filled.next bufSize lineNum) ⟨[], false⟩

section Filled

variable {bufSize lineNum : Nat} {f : Filled} {seen ls ls' r : List (List UInt8)} {l : List UInt8}

theorem filled_concat : filled bufSize lineNum (ls ++ [l]) = (filled bufSize lineNum ls).next bufSize lineNum l := by
  unfold filled
  rw [List.foldl_append]
  rfl

theorem Filled.next_of_ended (h : f.ended = true) : f.next bufSize lineNum l = f := if_pos h

theorem foldl_next_of_ended (h : f.ended = true) (ls : List (List UInt8)) :
    ls.foldl (Filled.next bufSize lineNum) f = f := by
  induction ls with
  | nil => rfl
  | cons l ls ih => rw [List.foldl_cons, Filled.next_of_ended h, ih]

theorem filled_append_of_ended (h : (filled bufSize lineNum ls).ended = true) (ls' : List (List UInt8)) :
    filled bufSize lineNum (ls ++ ls') = filled bufSize lineNum ls := by
  unfold filled at *
  rw [List.foldl_append, foldl_next_of_ended h]

/-- A line that fits. -/
theorem Filled.next_of_fits (h : (storedLines (seen ++ [l])).length < bufSize) :
    Filled.next bufSize lineNum ⟨seen, false⟩ l = ⟨seen ++ [l], isFinal lineNum (seen.length + 1) l⟩ := by
  rw [storedLines_concat, List.length_append] at h
  unfold Filled.next
  rw [if_neg Bool.false_ne_true]
  dsimp only
  rw [if_pos h, List.length_append, List.length_singleton]

/-- What is stored was received, and fits. -/
theorem filled_lines (bufSize lineNum : Nat) (ls : List (List UInt8)) :
    (∀ l ∈ (filled bufSize lineNum ls).lines, l ∈ ls) ∧
      ((filled bufSize lineNum ls).lines = [] ∨ (storedLines (filled bufSize lineNum ls).lines).length < bufSize) := by
  induction ls using List.reverseRecOn with
  | nil => exact ⟨fun l hl => absurd hl List.not_mem_nil, .inl rfl⟩
  | append_singleton ls l ih =>
      obtain ⟨hmem, hfit⟩ := ih
      have hmem' : ∀ x ∈ (filled bufSize lineNum ls).lines, x ∈ ls ++ [l] := fun x hx => List.mem_append_left _ (hmem x hx)
      rw [filled_concat]
      unfold Filled.next
      by_cases hended : (filled bufSize lineNum ls).ended = true
      · rw [if_pos hended]
        exact ⟨hmem', hfit⟩
      · rw [if_neg hended]
        dsimp only
        split_ifs with h
        · refine ⟨fun x hx => ?_, .inr ?_⟩
          · rcases List.mem_append.mp hx with hx | hx
            · exact hmem' x hx
            · exact List.mem_append_right _ hx
          · rw [storedLines_concat, List.length_append]
            exact h
        · exact ⟨hmem', hfit⟩

/-- As long as the lines fit, all are stored. -/
theorem foldl_next_of_fits (hfit : (storedLines (seen ++ ls)).length < bufSize)
    (h : responseFrom lineNum seen ls = none) :
    ls.foldl (Filled.next bufSize lineNum) ⟨seen, false⟩ = ⟨seen ++ ls, false⟩ := by
  induction ls generalizing seen with
  | nil => rw [List.append_nil, List.foldl_nil]
  | cons l ls ih =>
      have hassoc : seen ++ l :: ls = (seen ++ [l]) ++ ls := by simp
      rw [hassoc] at hfit ⊢
      rw [responseFrom] at h
      split_ifs at h with hfinal
      have hl := (length_storedLines_le (List.prefix_append (seen ++ [l]) ls)).trans_lt hfit
      rw [List.foldl_cons, Filled.next_of_fits hl, Bool.eq_false_iff.mpr hfinal]
      exact ih hfit h

theorem foldl_next_of_response (hfit : (storedLines r).length < bufSize) (h : responseFrom lineNum seen ls = some r) :
    ls.foldl (Filled.next bufSize lineNum) ⟨seen, false⟩ = ⟨r, true⟩ := by
  induction ls generalizing seen with
  | nil => cases h
  | cons l ls ih =>
      rw [responseFrom] at h
      split_ifs at h with hfinal
      · obtain rfl := Option.some.inj h
        rw [List.foldl_cons, Filled.next_of_fits hfit, hfinal, foldl_next_of_ended rfl]
      · have hl := (length_storedLines_le (prefix_of_responseFrom h).1).trans_lt hfit
        rw [List.foldl_cons, Filled.next_of_fits hl, Bool.eq_false_iff.mpr hfinal]
        exact ih h

/-- **A response that fits** is stored. -/
theorem filled_of_response (h : response lineNum ls = some r) (hfit : (storedLines r).length < bufSize) :
    filled bufSize lineNum ls = ⟨r, true⟩ := foldl_next_of_response hfit h

/-- In front of its last line, nothing has ended it. -/
theorem filled_of_early (h : response lineNum ls = none) (h' : response lineNum (ls ++ ls') = some r)
    (hfit : (storedLines r).length < bufSize) : (filled bufSize lineNum ls).ended = false := by
  unfold response at h h'
  rw [responseFrom_append_of_none h] at h'
  have hpre := (prefix_of_responseFrom h').1
  unfold filled
  rw [foldl_next_of_fits ((length_storedLines_le hpre).trans_lt hfit) h]

end Filled

/-! ## The parser -/

namespace AtSys

section Parser

variable {conf : AtConf} {s : AtSys} {id : Nat} {l : List UInt8} {f : Filled}

/-- A good line is handed over to the response object that `client->resp` points to. -/
theorem clientParser_good (h : GoodLine conf l) :
    (∀ id, s.client.resp = some id → s.clientParser conf (l ++ [cr, lf]) = s.parseResp id (stored l)) ∧
      (s.client.resp = none → s.clientParser conf (l ++ [cr, lf]) = s) := by
  have hread := atRecvReadline_good h []
  rw [List.append_nil] at hread
  have hnone : getUrcObj conf.urcTable (l ++ [cr, lf]) = none := h.2.2.2 _ ((List.mem_inits _ _).mpr List.prefix_rfl)
  have hdrop : (l ++ [cr, lf]).dropLast ++ [0] = stored l := by simp [stored]
  unfold clientParser
  rw [hread]
  dsimp only
  rw [hnone, if_neg (by simp), hdrop]
  exact ⟨fun id hid => by rw [hid], fun hid => by rw [hid]⟩

/-- The parser is in a response with the lines that `f` has. -/
structure Filling (s : AtSys) (id : Nat) (f : Filled) : Prop where
  resp : s.client.resp = some id
  parser : s.parser = ⟨(storedLines f.lines).length, f.lines.length⟩
  buf : storedLines f.lines <+: (s.resps id).buf

/-- What a line does to the buffer. -/
theorem Filling.store (h : Filling s id f) (l : List UInt8)
    (hfits : (storedLines f.lines).length + (stored l).length < (s.resps id).buf.length) :
    storedLines (f.lines ++ [l]) <+: (s.resps id).buf.take s.parser.respBufLen ++ stored l ++
        (s.resps id).buf.drop (s.parser.respBufLen + (stored l).length) ∧
      ((s.resps id).buf.take s.parser.respBufLen ++ stored l ++
        (s.resps id).buf.drop (s.parser.respBufLen + (stored l).length)).length = (s.resps id).buf.length := by
  obtain ⟨rest, hrest⟩ := h.buf
  have hlen : s.parser.respBufLen = (storedLines f.lines).length := by rw [h.parser]
  have htake : (s.resps id).buf.take s.parser.respBufLen = storedLines f.lines := by
    rw [hlen, ← hrest, List.take_left]
  rw [htake, storedLines_concat]
  refine ⟨List.prefix_append _ _, ?_⟩
  simp only [List.length_append, List.length_drop]
  omega

/-- The end of `client_parser`, for an object and variables to which the line was stored. -/
def finish (s : AtSys) (id : Nat) (l : List UInt8) (resp : AtResponse) (parser : AtParser) (status : AtRespStatus) : AtSys :=
  if startsWith (stored l) atRespEndOk ∧ resp.lineNum = 0 then s.endResp id resp parser .ok
  else if endsError (stored l) then s.endResp id resp parser .error
  else if parser.lineCounts = resp.lineNum ∧ resp.lineNum ≠ 0 then s.endResp id resp parser .ok
  else
    { s with
      resps := Function.update s.resps id resp
      client := { s.client with respStatus := status }
      parser := parser }

/-- It ends the response with a line that does. -/
theorem finish_cases (s : AtSys) (id : Nat) (l : List UInt8) (resp : AtResponse) (parser : AtParser)
    (status : AtRespStatus) :
    (isFinal resp.lineNum parser.lineCounts l = true ∧
        ∃ status', s.finish id l resp parser status = s.endResp id resp parser status') ∨
      (isFinal resp.lineNum parser.lineCounts l = false ∧ s.finish id l resp parser status =
        { s with
          resps := Function.update s.resps id resp
          client := { s.client with respStatus := status }
          parser := parser }) := by
  unfold finish isFinal
  by_cases hok : startsWith (stored l) atRespEndOk ∧ resp.lineNum = 0
  · rw [if_pos hok]
    exact .inl ⟨by simp [hok.1, hok.2], .ok, rfl⟩
  rw [if_neg hok]
  by_cases herror : endsError (stored l) = true
  · rw [if_pos herror]
    exact .inl ⟨by simp [herror], .error, rfl⟩
  rw [if_neg herror]
  by_cases hcount : parser.lineCounts = resp.lineNum ∧ resp.lineNum ≠ 0
  · rw [if_pos hcount]
    exact .inl ⟨by simp [hcount.1, hcount.2], .ok, rfl⟩
  rw [if_neg hcount]
  refine .inr ⟨?_, rfl⟩
  simp only [Bool.or_eq_false_iff, Bool.and_eq_false_iff, decide_eq_false_iff_not]
  exact ⟨⟨by simpa [or_iff_not_imp_left] using hok, by simpa using herror⟩, not_and_or.mp hcount⟩

theorem parseResp_of_fits (hfits : s.parser.respBufLen + (stored l).length < (s.resps id).buf.length) :
    s.parseResp id (stored l) = s.finish id l
      { s.resps id with buf := (s.resps id).buf.take s.parser.respBufLen ++ stored l ++
          (s.resps id).buf.drop (s.parser.respBufLen + (stored l).length) }
      ⟨s.parser.respBufLen + (stored l).length, s.parser.lineCounts + 1⟩ s.client.respStatus := by
  unfold parseResp
  simp only [if_pos hfits]
  rfl

theorem parseResp_of_full (hfull : ¬ s.parser.respBufLen + (stored l).length < (s.resps id).buf.length) :
    s.parseResp id (stored l) = s.finish id l (s.resps id) s.parser .buffFull := by
  unfold parseResp
  simp only [if_neg hfull]
  rfl

/-- **A line of a response.** -/
theorem Filling.parseResp (h : Filling s id f) (hrun : f.ended = false) (l : List UInt8) {f' : Filled} {s' : AtSys}
    (hf' : f' = f.next (s.resps id).buf.length (s.resps id).lineNum l) (hs' : s' = s.parseResp id (stored l)) :
    (s'.cmd = s.cmd ∧ (s'.resps id).buf.length = (s.resps id).buf.length ∧ (s'.resps id).lineNum = (s.resps id).lineNum) ∧
      storedLines f'.lines <+: (s'.resps id).buf ∧
        (f'.ended = true → s'.client.resp = none ∧ (s'.resps id).lineCounts = f'.lines.length) ∧
          (f'.ended = false → Filling s' id f' ∧ (s'.resps id).lineCounts = (s.resps id).lineCounts) := by
  -- the object and the variables when the line is stored, or left out
  obtain ⟨resp, parser, status, hparse, ⟨hlen, hnum, hcounts⟩, hparser, hbuf, hended⟩ : ∃ resp parser status,
      s' = s.finish id l resp parser status ∧
      (resp.buf.length = (s.resps id).buf.length ∧ resp.lineNum = (s.resps id).lineNum ∧
        resp.lineCounts = (s.resps id).lineCounts) ∧
      parser = ⟨(storedLines f'.lines).length, f'.lines.length⟩ ∧ storedLines f'.lines <+: resp.buf ∧
      f'.ended = isFinal resp.lineNum f'.lines.length l := by
    have hlen : s.parser.respBufLen = (storedLines f.lines).length := by rw [h.parser]
    have hcount : s.parser.lineCounts = f.lines.length := by rw [h.parser]
    rw [hf', Filled.next, if_neg (by rw [hrun]; exact Bool.false_ne_true)]
    by_cases hfits : (storedLines f.lines).length + (stored l).length < (s.resps id).buf.length
    · obtain ⟨hpre, hsame⟩ := h.store l hfits
      dsimp only
      rw [if_pos hfits]
      refine ⟨_, _, _, hs'.trans (parseResp_of_fits (hlen ▸ hfits)), ⟨hsame, rfl, rfl⟩, ?_, hpre, rfl⟩
      rw [hlen, hcount, storedLines_concat, List.length_append, List.length_append, List.length_singleton]
    · dsimp only
      rw [if_neg hfits]
      exact ⟨_, _, _, hs'.trans (parseResp_of_full (hlen ▸ hfits)), ⟨rfl, rfl, rfl⟩, h.parser, h.buf, rfl⟩
  have hcount : parser.lineCounts = f'.lines.length := by rw [hparser]
  rcases s.finish_cases id l resp parser status with ⟨hfinal, status', heq⟩ | ⟨hfinal, heq⟩
  · rw [hparse, heq]
    rw [hcount, ← hended] at hfinal
    unfold endResp
    dsimp only
    rw [Function.update_self]
    exact ⟨⟨rfl, hlen, hnum⟩, hbuf, fun _ => ⟨rfl, hcount⟩, fun hf => absurd (hfinal.symm.trans hf) (by decide)⟩
  · rw [hparse, heq]
    rw [hcount, ← hended] at hfinal
    have hself : Function.update s.resps id resp id = resp := Function.update_self id resp s.resps
    dsimp only
    rw [hself]
    exact ⟨⟨rfl, hlen, hnum⟩, hbuf, fun ht => absurd (hfinal.symm.trans ht) (by decide),
      fun _ => ⟨⟨h.resp, hparser, by dsimp only; rw [hself]; exact hbuf⟩, hcounts⟩⟩

end Parser

/-! ## A command -/

/-- The lines that come in. -/
def received (es : List AtEvent) : List (List UInt8) :=
  es.filterMap fun
    | .line l => some l
    | _ => none

/-- What happens before `line_counts` is set to 0. -/
def beforeReset (es : List AtEvent) : List AtEvent := es.takeWhile (· ≠ .reset)

section Events

variable {es es' : List AtEvent} {e : AtEvent}

theorem received_concat_line (es : List AtEvent) (l : List UInt8) : received (es ++ [.line l]) = received es ++ [l] := by
  unfold received
  rw [List.filterMap_append]
  rfl

theorem received_concat_of_ne (h : ∀ l, e ≠ .line l) : received (es ++ [e]) = received es := by
  unfold received
  rw [List.filterMap_append]
  cases e with
  | line l => exact absurd rfl (h l)
  | _ => exact List.append_nil _

theorem beforeReset_isPrefix (es : List AtEvent) : beforeReset es <+: es := List.takeWhile_prefix _

theorem beforeReset_concat (h : .reset ∈ es) (e : AtEvent) : beforeReset (es ++ [e]) = beforeReset es := by
  unfold beforeReset
  rw [List.takeWhile_append, if_neg]
  intro hlen
  have hall := (List.takeWhile_prefix _).eq_of_length hlen
  exact absurd (List.takeWhile_eq_self_iff.mp hall _ h) (by simp)

theorem beforeReset_concat_reset (h : .reset ∉ es) : beforeReset (es ++ [.reset]) = es := by
  unfold beforeReset
  have hall : es.takeWhile (· ≠ .reset) = es :=
    List.takeWhile_eq_self_iff.mpr fun x hx => decide_eq_true fun hr => h (hr ▸ hx)
  rw [List.takeWhile_append, if_pos (congrArg List.length hall)]
  exact List.append_nil _

theorem received_isPrefix (h : es <+: es') : received es <+: received es' := by
  obtain ⟨more, rfl⟩ := h
  unfold received
  rw [List.filterMap_append]
  exact List.prefix_append _ _

end Events

/-- **The invariant of a command** that was sent when nothing was left in the parser, for what has happened since. -/
structure Progress (id bufSize lineNum : Nat) (s : AtSys) (es : List AtEvent) : Prop where
  cmd : ∃ phase, s.cmd = some ⟨some id, phase⟩ ∧ (phase = .sent ↔ .reset ∉ es)
  size : (s.resps id).buf.length = bufSize
  num : (s.resps id).lineNum = lineNum
  good : ∀ l ∈ received es, 0 ∉ l
  buf : storedLines (filled bufSize lineNum (received es)).lines <+: (s.resps id).buf
  running : (filled bufSize lineNum (received es)).ended = false → Filling s id (filled bufSize lineNum (received es))
  ended : (filled bufSize lineNum (received es)).ended = true → s.client.resp = none
  counts : .reset ∈ es → (s.resps id).lineCounts =
    if (filled bufSize lineNum (received es)).ended = true ∧
      (filled bufSize lineNum (received (beforeReset es))).ended = false
    then (filled bufSize lineNum (received es)).lines.length else 0

section Command

variable {conf : AtConf} {s s' : AtSys} {id bufSize lineNum : Nat} {es : List AtEvent} {e : AtEvent} {l : List UInt8}

/-- An event that the parser does not see. -/
theorem Progress.quiet (h : Progress id bufSize lineNum s es) (hline : ∀ l, e ≠ .line l) (hreset : e ≠ .reset)
    (hresp : s'.resps id = s.resps id) (hclient : s'.client.resp = s.client.resp) (hparser : s'.parser = s.parser)
    (hcmd : ∃ phase, s'.cmd = some ⟨some id, phase⟩ ∧ (phase = .sent ↔ .reset ∉ es)) :
    Progress id bufSize lineNum s' (es ++ [e]) := by
  have hmem : .reset ∈ es ++ [e] ↔ .reset ∈ es := by simp [Ne.symm hreset]
  have hrec : received (es ++ [e]) = received es := received_concat_of_ne hline
  refine ⟨by simpa only [hmem] using hcmd, hresp ▸ h.size, hresp ▸ h.num, hrec ▸ h.good, ?_, ?_, ?_, fun hin => ?_⟩
  · rw [hrec, hresp]
    exact h.buf
  · rw [hrec]
    intro hrun
    obtain ⟨hr, hp, hb⟩ := h.running hrun
    exact ⟨hclient.trans hr, hparser.trans hp, hresp ▸ hb⟩
  · rw [hrec, hclient]
    exact h.ended
  · rw [hrec, hresp, beforeReset_concat (hmem.mp hin)]
    exact h.counts (hmem.mp hin)

/-- `line_counts` is set to 0. -/
theorem Progress.reset (h : Progress id bufSize lineNum s es) (hnot : .reset ∉ es) :
    Progress id bufSize lineNum { s with
      resps := Function.update s.resps id { s.resps id with lineCounts := 0 }
      cmd := some ⟨some id, .waiting⟩ } (es ++ [.reset]) := by
  have hrec : received (es ++ [.reset]) = received es := received_concat_of_ne fun l h => by cases h
  have hself : Function.update s.resps id { s.resps id with lineCounts := 0 } id = { s.resps id with lineCounts := 0 } :=
    Function.update_self ..
  refine ⟨⟨.waiting, rfl, by simp⟩, ?_, ?_, hrec ▸ h.good, ?_, ?_, ?_, fun _ => ?_⟩
  · dsimp only
    rw [hself]
    exact h.size
  · dsimp only
    rw [hself]
    exact h.num
  · dsimp only
    rw [hrec, hself]
    exact h.buf
  · rw [hrec]
    intro hrun
    obtain ⟨hr, hp, hb⟩ := h.running hrun
    exact ⟨hr, hp, by dsimp only; rw [hself]; exact hb⟩
  · rw [hrec]
    exact h.ended
  · -- if it has ended, then before
    dsimp only
    rw [hself, hrec, beforeReset_concat_reset hnot, if_neg fun hboth => by rw [hboth.1] at hboth; exact absurd hboth.2 (by decide)]

/-- **A line comes in.** -/
theorem Progress.line (h : Progress id bufSize lineNum s es) (hl : GoodLine conf l) :
    Progress id bufSize lineNum (s.clientParser conf (l ++ [cr, lf])) (es ++ [.line l]) := by
  have hrec := received_concat_line es l
  have hgood : ∀ x ∈ received (es ++ [.line l]), 0 ∉ x := fun x hx => by
    rcases List.mem_append.mp (hrec ▸ hx) with hx | hx
    · exact h.good x hx
    · obtain rfl := List.mem_singleton.mp hx
      exact hl.1.1
  have hreset : .reset ∈ es ++ [AtEvent.line l] ↔ .reset ∈ es := by simp
  obtain ⟨phase, hcmd, hphase⟩ := h.cmd
  obtain ⟨hsome, hnone⟩ := clientParser_good (s := s) hl
  by_cases hended : (filled bufSize lineNum (received es)).ended = true
  · -- the response has ended: the line is not recognised
    have hsame : filled bufSize lineNum (received (es ++ [.line l])) = filled bufSize lineNum (received es) := by
      rw [hrec, filled_append_of_ended hended]
    rw [hnone (h.ended hended)]
    refine ⟨⟨phase, hcmd, hphase.trans (not_congr hreset.symm)⟩, h.size, h.num, hgood, ?_, ?_, ?_, fun hin => ?_⟩
    · rw [hsame]
      exact h.buf
    · rw [hsame]
      exact h.running
    · exact fun _ => h.ended hended
    · rw [hsame, beforeReset_concat (hreset.mp hin)]
      exact h.counts (hreset.mp hin)
  · have hrun := Bool.eq_false_iff.mpr hended
    have hfill := h.running hrun
    rw [hsome id hfill.resp]
    have hnext : filled bufSize lineNum (received (es ++ [.line l])) =
        (filled bufSize lineNum (received es)).next (s.resps id).buf.length (s.resps id).lineNum l := by
      rw [hrec, filled_concat, h.size, h.num]
    obtain ⟨⟨hcmd', hsize, hnum⟩, hbuf, hend, hgo⟩ := hfill.parseResp hrun l hnext rfl
    refine ⟨⟨phase, hcmd'.trans hcmd, hphase.trans (not_congr hreset.symm)⟩, hsize.trans h.size, hnum.trans h.num, hgood,
      hbuf, fun hf => (hgo hf).1, fun ht => (hend ht).1, fun hin => ?_⟩
    have hin' := hreset.mp hin
    rw [beforeReset_concat hin']
    -- the response had not ended before the reset either
    have hearly : (filled bufSize lineNum (received (beforeReset es))).ended = false := by
      by_contra hne
      obtain ⟨more, hmore⟩ := received_isPrefix (beforeReset_isPrefix es)
      have hsame : filled bufSize lineNum (received (beforeReset es) ++ more) =
          filled bufSize lineNum (received (beforeReset es)) := filled_append_of_ended (by simpa using hne) more
      rw [hmore] at hsame
      rw [hsame] at hrun
      exact hne hrun
    by_cases hf : (filled bufSize lineNum (received (es ++ [.line l]))).ended = true
    · rw [if_pos ⟨hf, hearly⟩]
      exact (hend hf).2
    · rw [if_neg fun hboth => hf hboth.1, (hgo (Bool.eq_false_iff.mpr hf)).2, h.counts hin', if_neg fun hboth => hended hboth.1]

/-- **One step** of a command. -/
theorem Progress.step (h : Progress id bufSize lineNum s es) (hret : ∀ result, e ≠ .ret result) (hstep : Step conf s e s') :
    Progress id bufSize lineNum s' (es ++ [e]) := by
  obtain ⟨phase, hcmd, hphase⟩ := h.cmd
  have hmine : s.cmd.bind AtCmd.resp = some id := by rw [hcmd]; rfl
  unfold Step exec at hstep
  cases e with
  | create id' bufSize' lineNum' =>
      dsimp only at hstep
      split_ifs at hstep with hid
      cases hstep
      refine h.quiet nofun nofun (Function.update_of_ne ?_ _ _) rfl rfl ⟨phase, hcmd, hphase⟩
      rintro rfl
      exact hid hmine
  | setInfo id' bufSize' lineNum' more =>
      dsimp only at hstep
      split_ifs at hstep with hid
      cases hstep
      refine h.quiet nofun nofun (Function.update_of_ne ?_ _ _) rfl rfl ⟨phase, hcmd, hphase⟩
      rintro rfl
      exact hid.1 hmine
  | send resp =>
      dsimp only at hstep
      rw [hcmd, if_neg (by simp)] at hstep
      cases hstep
  | reset =>
      dsimp only at hstep
      rw [hcmd] at hstep
      cases phase with
      | sent =>
          cases hstep
          exact h.reset (hphase.mp rfl)
      | _ => cases hstep
  | take =>
      dsimp only at hstep
      rw [hcmd] at hstep
      cases phase with
      | waiting =>
          dsimp only at hstep
          split_ifs at hstep
          cases hstep
          exact h.quiet nofun nofun rfl rfl rfl ⟨.taken, rfl, by simpa using hphase⟩
      | _ => cases hstep
  | timeout =>
      dsimp only at hstep
      rw [hcmd] at hstep
      cases phase with
      | waiting =>
          dsimp only at hstep
          split_ifs at hstep
          cases hstep
          exact h.quiet nofun nofun rfl rfl rfl ⟨.timedOut, rfl, by simpa using hphase⟩
      | _ => cases hstep
  | ret result => exact absurd rfl (hret result)
  | line l =>
      dsimp only at hstep
      split_ifs at hstep with hl
      cases hstep
      exact h.line hl

/-- The invariant when the command has been sent. -/
theorem Progress.send (hclean : s.parser = ⟨0, 0⟩) (hstep : Step conf s (.send (some id)) s') :
    Progress id (s.resps id).buf.length (s.resps id).lineNum s' [] := by
  unfold Step exec at hstep
  dsimp only at hstep
  split_ifs at hstep
  cases hstep
  exact ⟨⟨.sent, rfl, by simp⟩, rfl, rfl, fun l hl => absurd hl List.not_mem_nil, List.nil_prefix,
    fun _ => ⟨rfl, hclean, List.nil_prefix⟩, nofun, fun h => absurd h List.not_mem_nil⟩

/-- Success comes behind the semaphore. -/
theorem ret_ok {phase : AtPhase} (hcmd : s.cmd = some ⟨some id, phase⟩) (hstep : Step conf s (.ret .ok) s') :
    phase = .taken ∧ s'.resps = s.resps := by
  unfold Step exec ret at hstep
  dsimp only at hstep
  rw [hcmd] at hstep
  cases phase with
  | taken =>
      dsimp only [Option.bind_some] at hstep
      split_ifs at hstep <;> cases hstep <;> exact ⟨rfl, rfl⟩
  | timedOut =>
      dsimp only [Option.bind_some] at hstep
      rw [if_neg (by decide)] at hstep
      cases hstep
  | _ => cases hstep

theorem Progress.run (h : Progress id bufSize lineNum s []) (hret : ∀ result, .ret result ∉ es)
    (hrun : Run (Step conf) s es s') : Progress id bufSize lineNum s' es := by
  induction hrun with
  | nil => exact h
  | snoc _ hstep ih =>
      exact (ih fun result hin => hret result (List.mem_append_left _ hin)).step
        (fun result heq => hret result (by rw [heq]; simp)) hstep

end Command

/-! ## The main result -/

/-- **The response object has exactly the lines of the response**, among those that came in behind the command. -/
def HasLines (resp : AtResponse) (es : List AtEvent) : Prop :=
  ∃ ls, response resp.lineNum (received es) = some ls ∧ resp.lineCounts = ls.length ∧
    ∀ i, resp.atRespGetLine (i + 1) = ls[i]?.map (· ++ [cr])

/-- The condition for what came in behind a command: the response is there, has not ended in front of the reset, and
fits. -/
def Receives (resp : AtResponse) (es : List AtEvent) : Prop :=
  response resp.lineNum (received (beforeReset es)) = none ∧
    ∃ ls, response resp.lineNum (received es) = some ls ∧ (storedLines ls).length < resp.buf.length

/-- **A command that returns success** has the lines of its response if nothing was left in the parser when it was sent, and
its response was received as it should. In the first case, the second one is exact. -/
theorem at_resp_lines {conf : AtConf} {s₀ s₁ s s' : AtSys} {id : Nat} {es : List AtEvent}
    (hsend : Step conf s₀ (.send (some id)) s₁) (hrun : Run (Step conf) s₁ es s) (hes : ∀ result, .ret result ∉ es)
    (hret : Step conf s (.ret .ok) s') (hclean : s₀.parser = ⟨0, 0⟩) :
    HasLines (s'.resps id) es ↔ Receives (s₀.resps id) es := by
  have h := (Progress.send hclean hsend).run hes hrun
  obtain ⟨phase, hcmd, hphase⟩ := h.cmd
  obtain ⟨rfl, hresps⟩ := ret_ok hcmd hret
  have hreset : .reset ∈ es := by
    by_contra hnot
    cases hphase.mpr hnot
  unfold HasLines Receives
  rw [hresps, h.num]
  have hbuf := h.buf
  have hcounts := h.counts hreset
  obtain ⟨hmem, hfit⟩ := filled_lines (s₀.resps id).buf.length (s₀.resps id).lineNum (received es)
  have hgood : ∀ l ∈ (filled (s₀.resps id).buf.length (s₀.resps id).lineNum (received es)).lines, 0 ∉ l :=
    fun l hl => h.good l (hmem l hl)
  obtain ⟨more, hmore⟩ := received_isPrefix (beforeReset_isPrefix es)
  constructor
  · rintro ⟨ls, hls, hlen, hget⟩
    have hne := response_ne_nil hls
    -- the response has ended, behind the reset: otherwise `line_counts` is 0
    have hended : (filled (s₀.resps id).buf.length (s₀.resps id).lineNum (received es)).ended = true ∧
        (filled (s₀.resps id).buf.length (s₀.resps id).lineNum (received (beforeReset es))).ended = false := by
      by_contra hnot
      rw [if_neg hnot, hlen] at hcounts
      exact hne (List.length_eq_zero_iff.mp hcounts)
    rw [if_pos hended] at hcounts
    have heq := lines_eq hbuf hgood hcounts hget
    rw [heq] at hfit
    have hfits := hfit.resolve_left hne
    refine ⟨?_, ls, hls, hfits⟩
    cases hearly : response (s₀.resps id).lineNum (received (beforeReset es)) with
    | none => rfl
    | some ls' =>
        have hls' : response (s₀.resps id).lineNum (received es) = some ls' := by
          rw [← hmore]
          exact responseFrom_append hearly
        obtain rfl : ls = ls' := Option.some.inj (hls.symm.trans hls')
        have hf := filled_of_response hearly hfits
        rw [hf] at hended
        cases hended.2
  · rintro ⟨hearly, ls, hls, hfits⟩
    have hf := filled_of_response hls hfits
    have hf' := filled_of_early hearly (by rw [hmore]; exact hls) hfits
    rw [hf] at hbuf hcounts hgood
    rw [if_pos ⟨rfl, hf'⟩] at hcounts
    exact ⟨ls, hls, hcounts, atRespGetLine_stored hbuf hgood hcounts⟩

/-! ## Two commands -/

/-- Short lines, and no URC. -/
def conf64 : AtConf := ⟨64, 0, []⟩

/-- Response objects for lines up to an `OK`. -/
def resps32 (_ : Nat) : AtResponse := .atCreateResp 32 0

/-- A command with two lines, `A` and `OK`. -/
theorem at_resp_lines_run : ∃ s, Run (Step conf64) (init resps32)
    [.send (some 1), .reset, .line [65], .line [79, 75], .take, .ret .ok] s ∧
      HasLines (s.resps 1) [.reset, .line [65], .line [79, 75], .take] := by
  obtain ⟨s, hs, -⟩ := Option.map_eq_some_iff.mp (show (((init resps32).exec conf64 (.send (some 1))).bind fun s₁ =>
    ([.reset, .line [65], .line [79, 75], .take].foldlM (AtSys.exec conf64) s₁).bind fun s =>
      s.exec conf64 (.ret .ok)).map (fun s => (s.resps 1).lineCounts) = some 2 by decide +kernel)
  obtain ⟨s₁, hsend, hs⟩ := Option.bind_eq_some_iff.mp hs
  obtain ⟨s₂, hes, hret⟩ := Option.bind_eq_some_iff.mp hs
  have hrun : Run (Step conf64) s₁ [.reset, .line [65], .line [79, 75], .take] s₂ := Run.of_foldlM (fun _ _ _ h => h) hes
  exact ⟨s, ((Run.single hsend).append hrun).append (Run.single hret),
    (at_resp_lines hsend hrun (by simp) hret rfl).mpr ⟨by decide +kernel, [[65], [79, 75]], by decide +kernel, by decide⟩⟩

/-- **A line of another response**: the first command times out behind `A`, and the second one has two lines. -/
theorem at_resp_stale : ∃ s₀ s, Run (Step conf64) (init resps32)
    [.send (some 1), .reset, .line [65], .timeout, .ret .timeout] s₀ ∧
      Run (Step conf64) s₀ [.send (some 1), .reset, .line [79, 75], .take, .ret .ok] s ∧
        ¬ HasLines (s.resps 1) [.reset, .line [79, 75], .take] := by
  obtain ⟨s, hs, hcounts⟩ := Option.map_eq_some_iff.mp (show
    (([.send (some 1), .reset, .line [65], .timeout, .ret .timeout].foldlM (AtSys.exec conf64) (init resps32)).bind fun s₀ =>
      [.send (some 1), .reset, .line [79, 75], .take, .ret .ok].foldlM (AtSys.exec conf64) s₀).map
        (fun s => ((s.resps 1).lineNum, (s.resps 1).lineCounts)) = some (0, 2) by decide +kernel)
  obtain ⟨s₀, hfirst, hsecond⟩ := Option.bind_eq_some_iff.mp hs
  obtain ⟨hnum, hcounts⟩ := Prod.mk.inj hcounts
  refine ⟨s₀, s, Run.of_foldlM (fun _ _ _ h => h) hfirst, Run.of_foldlM (fun _ _ _ h => h) hsecond, ?_⟩
  rintro ⟨ls, hls, hlen, -⟩
  rw [hnum, show response 0 (received [.reset, .line [79, 75], .take]) = some [[79, 75]] by decide +kernel] at hls
  obtain rfl := Option.some.inj hls
  rw [hcounts] at hlen
  exact absurd hlen (by decide)

end AtSys

end CoreLink.RtThread
