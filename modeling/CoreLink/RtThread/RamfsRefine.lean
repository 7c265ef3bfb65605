/-
# `CoreLink.RtThread.RamfsRefine` — when the ramfs is a map from names to byte strings.

The entries with their names and blocks stand for the map, through `Ramfs.abs`. What can go wrong is in the descriptor:
its size of the file is an old one after a write or a truncation through another descriptor, and the calls that use it
are right exactly if that does not matter (`Ramfs.CallOk`).
-/
import CoreLink.RtThread.Ramfs

namespace CoreLink.RtThread

open CoreLink.Lib

/-! ## Bytes -/

theorem replaceAt_nil (bytes : List UInt8) (pos : Nat) : replaceAt bytes pos [] = bytes := by
  unfold replaceAt
  rw [List.append_nil, List.length_nil, Nat.add_zero, List.take_append_drop]

theorem length_replaceAt {bytes : List UInt8} {pos : Nat} (hpos : pos ≤ bytes.length) (buf : List UInt8) :
    (replaceAt bytes pos buf).length = max bytes.length (pos + buf.length) := by
  unfold replaceAt
  rw [List.length_append, List.length_append, List.length_take, List.length_drop]
  omega

/-- A reallocation to a larger size keeps the bytes. -/
theorem reallocBytes_grow {old : Option (List UInt8)} {size : Nat} (h : (old.getD []).length ≤ size)
    (fresh : Nat → UInt8) :
    reallocBytes old size fresh = old.getD [] ++ (List.range (size - (old.getD []).length)).map fresh := by
  unfold reallocBytes
  rw [List.take_of_length_le h]

theorem length_reallocBytes (old : Option (List UInt8)) (size : Nat) (fresh : Nat → UInt8) :
    (reallocBytes old size fresh).length = size := by
  unfold reallocBytes
  rw [List.length_append, List.length_take, List.length_map, List.length_range]
  omega

/-- What is written up to the end does not depend on what the reallocation has added. -/
theorem replaceAt_realloc {old : Option (List UInt8)} {pos : Nat} {buf : List UInt8} (hpos : pos ≤ (old.getD []).length)
    (hend : (old.getD []).length ≤ pos + buf.length) (fresh : Nat → UInt8) :
    replaceAt (reallocBytes old (pos + buf.length) fresh) pos buf = replaceAt (old.getD []) pos buf := by
  have hlen := length_reallocBytes old (pos + buf.length) fresh
  unfold replaceAt
  rw [List.drop_eq_nil_of_le hend, List.drop_eq_nil_of_le (Nat.le_of_eq hlen), reallocBytes_grow hend,
    List.take_append_of_le_length hpos]

theorem toSigned_of_lt {n : Nat} (h : n < 2 ^ 31) : toSigned n = n := if_pos h

theorem toSigned_ne {n : Nat} (h : ¬ n < 2 ^ 31) (hn : n < 2 ^ 32) : toSigned n < 0 := by
  unfold toSigned
  rw [if_neg h]
  omega

namespace RamSpec

variable {F : Type*} [DecidableEq F] {a a' : RamSpec F} {f : F} {buf : List UInt8} {result : Int}

theorem step_wrote (h : result = buf.length) : a.Step (.write f buf, .wrote result) a' ↔
    ∃ name pos content, a.fd f = some (name, pos) ∧ a.files name = some content ∧
      (buf ≠ [] → pos ≤ content.length) ∧
        a' = { files := Function.update a.files name (some (replaceAt content pos buf))
               fd := Function.update a.fd f (some (name, pos + buf.length)) } := iff_of_eq (if_pos h)

theorem step_failed (h : result ≠ buf.length) : a.Step (.write f buf, .wrote result) a' ↔ a' = a :=
  iff_of_eq (if_neg h)

end RamSpec

namespace Ramfs

variable {D F : Type*} [DecidableEq D]

/-! ## The map -/

omit [DecidableEq D] in
/-- The entries, with the root directory. -/
def entries (s : Ramfs D F) : List D := s.root :: s.list

/-- What holds between the calls. -/
structure Inv (s : Ramfs D F) : Prop where
  block : ∀ d, (s.content d).length = s.size d
  small : ∀ d, s.size d < 2 ^ 32
  fds : ∀ f x, s.fd f = some x → x.dirent ∈ s.entries ∧ x.pos ≤ x.size ∧ x.size < 2 ^ 32
  short : ∀ d ∈ s.list, (s.name d).length < ramfsNameMax
  distinct : ∀ d ∈ s.entries, ∀ e ∈ s.entries, s.entryName d = s.entryName e → d = e
  root : s.root ∉ s.list

variable {s s' : Ramfs D F} {d e : D}

theorem inv_init (root : D) : (init root : Ramfs D F).Inv where
  block _ := rfl
  small _ := Nat.two_pow_pos 32
  fds _ _ := nofun
  short _ := nofun
  distinct _ hd _ he _ := (List.mem_singleton.mp hd).trans (List.mem_singleton.mp he).symm
  root := List.not_mem_nil

theorem entryName_root (s : Ramfs D F) : s.entryName s.root = [] := if_pos rfl

theorem Inv.entryName_of_mem (h : s.Inv) (hd : d ∈ s.list) : s.entryName d = s.name d := by
  refine if_neg ?_
  rintro rfl
  exact h.root hd

theorem find_entry {name : List Char} {ds : List D} (h : (ds.find? fun e => s.entryName e = name) = some d) :
    d ∈ ds ∧ s.entryName d = name :=
  ⟨List.mem_of_find?_eq_some h, by simpa using List.find?_some h⟩

/-- The file of an entry. -/
theorem Inv.files_eq (h : s.Inv) (hd : d ∈ s.entries) : s.abs.files (s.entryName d) = some (s.content d) := by
  show (s.entries.find? fun e => s.entryName e = s.entryName d).map s.content = _
  cases hfind : s.entries.find? fun e => s.entryName e = s.entryName d with
  | none => exact absurd (decide_eq_true rfl) (List.find?_eq_none.mp hfind d hd)
  | some e =>
    obtain ⟨he, hname⟩ := find_entry hfind
    rw [h.distinct e he d hd hname]
    rfl

/-- The lookup finds the entry that the map has. -/
theorem Inv.lookup_eq (h : s.Inv) (path : List Char) :
    s.lookup path = some (s.entries.find? fun d => s.entryName d = subpath path) := by
  have hloop : ∀ ds : List D, (∀ d ∈ ds, d ∈ s.list) →
      s.lookupIn (subpath path) ds = some (ds.find? fun d => s.entryName d = subpath path) := by
    intro ds
    induction ds with
    | nil => exact fun _ => rfl
    | cons d ds ih =>
      intro hmem
      have hd : d ∈ s.list := hmem d List.mem_cons_self
      have heq : nameEq (s.name d) (subpath path) = some (decide (s.entryName d = subpath path)) := by
        rw [h.entryName_of_mem hd]
        exact if_pos (h.short d hd)
      rw [lookupIn, heq, List.find?_cons]
      by_cases hname : s.entryName d = subpath path
      · rw [decide_eq_true hname]
      · rw [decide_eq_false hname]
        exact ih fun e he => hmem e (List.mem_cons_of_mem d he)
  unfold lookup entries
  rw [List.find?_cons, entryName_root]
  by_cases hnil : subpath path = []
  · rw [if_pos hnil, decide_eq_true hnil.symm]
  · rw [if_neg hnil, decide_eq_false fun hn => hnil hn.symm]
    exact hloop s.list fun _ => id

/-- The map, when one entry has other bytes. -/
theorem Inv.files_update (h : s.Inv) (hd : d ∈ s.entries) {bytes : List UInt8} (hroot : s'.root = s.root)
    (hlist : s'.list = s.list) (hname : s'.name = s.name)
    (hcontent : ∀ e, s'.content e = if e = d then bytes else s.content e) :
    s'.abs.files = Function.update s.abs.files (s.entryName d) (some bytes) := by
  have hentry : s'.entryName = s.entryName := by
    unfold entryName
    rw [hroot, hname]
  funext name
  show ((s'.root :: s'.list).find? fun e => s'.entryName e = name).map s'.content = _
  rw [hroot, hlist, hentry]
  by_cases hn : name = s.entryName d
  · subst hn
    rw [Function.update_self]
    have hfiles := h.files_eq hd
    cases hfind : (s.root :: s.list).find? fun e => s.entryName e = s.entryName d with
    | none => exact absurd (decide_eq_true rfl) (List.find?_eq_none.mp hfind d hd)
    | some e =>
      obtain ⟨he, hname⟩ := find_entry hfind
      rw [Option.map_some, hcontent, if_pos (h.distinct e he d hd hname)]
  · rw [Function.update_of_ne hn]
    show _ = ((s.root :: s.list).find? fun e => s.entryName e = name).map s.content
    cases hfind : (s.root :: s.list).find? fun e => s.entryName e = name with
    | none => rfl
    | some e =>
      have hne : e ≠ d := by
        rintro rfl
        exact hn (find_entry hfind).2.symm
      rw [Option.map_some, Option.map_some, hcontent, if_neg hne]

variable [DecidableEq F] {f : F} {x : RamFd D}

/-! ## Descriptors -/

omit [DecidableEq F] in
theorem abs_fd (hx : s.fd f = some x) : s.abs.fd f = some (s.entryName x.dirent, x.pos) := by
  show (s.fd f).map _ = _
  rw [hx]
  rfl

theorem abs_setFd (s : Ramfs D F) (f : F) (x : Option (RamFd D)) :
    (s.setFd f x).abs = { s.abs with fd := Function.update s.abs.fd f (x.map fun x => (s.entryName x.dirent, x.pos)) } := by
  have hfd : (s.setFd f x).abs.fd = Function.update s.abs.fd f (x.map fun x => (s.entryName x.dirent, x.pos)) := by
    funext g
    show (Function.update s.fd f x g).map _ = _
    by_cases hg : g = f
    · subst hg
      rw [Function.update_self, Function.update_self]
      rfl
    · rw [Function.update_of_ne hg, Function.update_of_ne hg]
      rfl
  rw [← hfd]
  rfl

theorem Inv.setFd (h : s.Inv) {y : Option (RamFd D)}
    (hy : ∀ x, y = some x → x.dirent ∈ s.entries ∧ x.pos ≤ x.size ∧ x.size < 2 ^ 32) : (s.setFd f y).Inv where
  block := h.block
  small := h.small
  fds g x hx := by
    replace hx : Function.update s.fd f y g = some x := hx
    by_cases hg : g = f
    · subst hg
      rw [Function.update_self] at hx
      exact hy x hx
    · rw [Function.update_of_ne hg] at hx
      exact h.fds g x hx
  short := h.short
  distinct := h.distinct
  root := h.root

/-! ## Reads -/

/-- What a read returns, if it does not read beyond the block. -/
theorem Inv.read_eq (h : s.Inv) (hx : s.fd f = some x) (count : Nat) :
    s.dfsRamfsRead f x count =
      if (((s.content x.dirent).drop x.pos).take (min count (x.size - x.pos))).length < min count (x.size - x.pos) then none
      else some (s.setFd f (some { x with pos := x.pos + min count (x.size - x.pos) }),
        toSigned (min count (x.size - x.pos)), ((s.content x.dirent).drop x.pos).take (min count (x.size - x.pos))) := by
  obtain ⟨-, hpos, hsize⟩ := h.fds f x hx
  have hleft : Word.sub 32 x.size x.pos = x.size - x.pos := by
    unfold Word.sub
    omega
  have hmin : (if count < x.size - x.pos then count else x.size - x.pos) = min count (x.size - x.pos) := by
    split <;> omega
  unfold dfsRamfsRead
  rw [hleft]
  dsimp only
  rw [hmin]
  rfl

theorem exec_read (hx : s.fd f = some x) (count : Nat) (answer : RamAnswer D) :
    s.exec (.read f count) answer = (s.dfsRamfsRead f x count).map fun r => (r.1, .read r.2.1 r.2.2) := by
  show (s.fd f).bind _ = _
  rw [hx, Option.bind_some]

/-- **A read** that meets the condition returns the bytes up to the end of the file. -/
theorem Inv.read_ok (h : s.Inv) (hx : s.fd f = some x) {count : Nat} {answer : RamAnswer D}
    (hok : s.CallOk (.read f count) answer) :
    ∃ s' out, s.exec (.read f count) answer = some (s', out) ∧ s.abs.Step (.read f count, out) s'.abs ∧ s'.Inv := by
  obtain ⟨hmem, hpos, hsize⟩ := h.fds f x hx
  have hblock := h.block x.dirent
  have hlen : (((s.content x.dirent).drop x.pos).take (min count (x.size - x.pos))).length =
      min (min count (x.size - x.pos)) (s.size x.dirent - x.pos) := by
    rw [List.length_take, List.length_drop, hblock]
  obtain ⟨hmin, hsmall⟩ := hok x hx
  have hexec := exec_read hx count answer
  rw [h.read_eq hx, if_neg (by omega)] at hexec
  refine ⟨_, _, hexec, ?_, ?_⟩
  · rw [abs_setFd]
    refine ⟨s.entryName x.dirent, x.pos, s.content x.dirent, abs_fd hx, h.files_eq hmem, ?_, ?_, ?_⟩
    · show List.take _ _ = _
      rw [hmin, ← hblock, ← List.length_drop, ← List.take_take, List.take_length]
    · show toSigned _ = _
      rw [toSigned_of_lt hsmall, hlen]
      omega
    · have hall : min (min count (x.size - x.pos)) (s.size x.dirent - x.pos) = min count (x.size - x.pos) := by omega
      show _ = RamSpec.mk _ _
      rw [hlen, hall]
      rfl
  · apply h.setFd
    rintro y ⟨⟩
    exact ⟨hmem, by dsimp only; omega, hsize⟩

/-- A read that keeps its promise meets the condition. -/
theorem Inv.ok_of_read (h : s.Inv) (hx : s.fd f = some x) {count : Nat} {answer : RamAnswer D}
    (hkept : s.Kept (.read f count) answer) : s.CallOk (.read f count) answer := by
  obtain ⟨hmem, -, hsize⟩ := h.fds f x hx
  have hblock := h.block x.dirent
  have hlen : (((s.content x.dirent).drop x.pos).take (min count (x.size - x.pos))).length =
      min (min count (x.size - x.pos)) (s.size x.dirent - x.pos) := by
    rw [List.length_take, List.length_drop, hblock]
  obtain ⟨s', out, hexec, hstep⟩ := hkept
  rw [exec_read hx, h.read_eq hx] at hexec
  intro y hy
  obtain rfl : x = y := Option.some.inj (hx.symm.trans hy)
  by_cases hfault : (((s.content x.dirent).drop x.pos).take (min count (x.size - x.pos))).length <
      min count (x.size - x.pos)
  · rw [if_pos hfault] at hexec
    exact absurd hexec nofun
  · rw [if_neg hfault] at hexec
    obtain ⟨rfl, rfl⟩ := Prod.mk.inj (Option.some.inj hexec)
    obtain ⟨name, pos, content, hfd, hfiles, hbytes, hresult, -⟩ := hstep
    obtain ⟨rfl, rfl⟩ := Prod.mk.inj (Option.some.inj ((abs_fd hx).symm.trans hfd))
    obtain rfl := Option.some.inj ((h.files_eq hmem).symm.trans hfiles)
    have hlen' := congrArg List.length hbytes
    rw [hlen, List.length_take, List.length_drop, hblock] at hlen'
    refine ⟨by omega, ?_⟩
    by_contra hbig
    have hneg := toSigned_ne hbig (by omega)
    replace hresult : toSigned _ = ((_ : Nat) : Int) := hresult
    omega

/-! ## Writes -/

/-- The file system after a write: other bytes in the entry, and other values in the descriptor. -/
def store (s : Ramfs D F) (f : F) (x : RamFd D) (bytes : List UInt8) (size pos : Nat) : Ramfs D F :=
  { s with
    data := Function.update s.data x.dirent (some bytes)
    size := Function.update s.size x.dirent bytes.length }.setFd f (some { x with size := size, pos := pos })

omit [DecidableEq F] in
theorem content_store (s : Ramfs D F) (d e : D) (bytes : List UInt8) (size : D → Nat) :
    ({ s with data := Function.update s.data d (some bytes), size := size } : Ramfs D F).content e =
      if e = d then bytes else s.content e := by
  show (Function.update s.data d (some bytes) e).getD [] = _
  by_cases he : e = d
  · rw [he, Function.update_self, if_pos rfl]
    rfl
  · rw [Function.update_of_ne he, if_neg he]
    rfl

theorem Inv.abs_store (h : s.Inv) (hx : s.fd f = some x) (bytes : List UInt8) (size pos : Nat) :
    (s.store f x bytes size pos).abs =
      { files := Function.update s.abs.files (s.entryName x.dirent) (some bytes)
        fd := Function.update s.abs.fd f (some (s.entryName x.dirent, pos)) } := by
  have hfiles : ({ s with
      data := Function.update s.data x.dirent (some bytes)
      size := Function.update s.size x.dirent bytes.length } : Ramfs D F).abs.files =
      Function.update s.abs.files (s.entryName x.dirent) (some bytes) :=
    h.files_update (h.fds f x hx).1 rfl rfl rfl fun e => content_store s x.dirent e bytes _
  unfold Ramfs.store
  rw [abs_setFd]
  dsimp only
  rw [hfiles]
  rfl

theorem Inv.store (h : s.Inv) (hx : s.fd f = some x) {bytes : List UInt8} {size pos : Nat}
    (hbytes : bytes.length < 2 ^ 32) (hpos : pos ≤ size) (hsize : size < 2 ^ 32) : (s.store f x bytes size pos).Inv := by
  have hinv : ({ s with
      data := Function.update s.data x.dirent (some bytes)
      size := Function.update s.size x.dirent bytes.length } : Ramfs D F).Inv := {
    block := fun e => by
      rw [content_store]
      show _ = Function.update s.size x.dirent bytes.length e
      by_cases he : e = x.dirent
      · rw [he, if_pos rfl, Function.update_self]
      · rw [if_neg he, Function.update_of_ne he]
        exact h.block e
    small := fun e => by
      show Function.update s.size x.dirent bytes.length e < _
      by_cases he : e = x.dirent
      · rw [he, Function.update_self]
        exact hbytes
      · rw [Function.update_of_ne he]
        exact h.small e
    fds := h.fds
    short := h.short
    distinct := h.distinct
    root := h.root }
  apply hinv.setFd
  rintro y ⟨⟩
  exact ⟨(h.fds f x hx).1, hpos, hsize⟩

/-- A write of no bytes changes nothing. -/
theorem Inv.write_nil (h : s.Inv) (hx : s.fd f = some x) (block : Option (Nat → UInt8)) :
    s.dfsRamfsWrite f x [] block = some (s, 0) := by
  obtain ⟨-, hpos, hsize⟩ := h.fds f x hx
  have htop : (x.pos + ([] : List UInt8).length) % 2 ^ 32 = x.pos := Nat.mod_eq_of_lt (by rw [List.length_nil]; omega)
  have hmap : ((s.data x.dirent).map fun bytes => replaceAt bytes x.pos []) = s.data x.dirent := by
    simp only [replaceAt_nil, Option.map_id']
  unfold dfsRamfsWrite
  dsimp only
  rw [htop, if_neg (by omega)]
  dsimp only
  rw [if_neg fun hc => hc.1 rfl, hmap, Function.update_eq_self, Function.update_eq_self]
  unfold Ramfs.setFd
  have hfd : Function.update s.fd f (some x) = s.fd := by rw [← hx, Function.update_eq_self]
  rw [hfd]
  rfl

/-- A write beyond the end of the file in the descriptor, when there is no memory. -/
theorem write_full (s : Ramfs D F) {buf : List UInt8} (htop : x.size < (x.pos + buf.length) % 2 ^ 32) :
    s.dfsRamfsWrite f x buf none = some (s, 0) := by
  unfold dfsRamfsWrite
  dsimp only
  rw [if_pos htop]
  rfl

/-- A write beyond the end of the file in the descriptor. -/
theorem write_grow (s : Ramfs D F) {buf : List UInt8} (hend : x.pos + buf.length < 2 ^ 32)
    (htop : x.size < x.pos + buf.length) (fresh : Nat → UInt8) :
    s.dfsRamfsWrite f x buf (some fresh) = some (s.store f x
      (replaceAt (reallocBytes (s.data x.dirent) (x.pos + buf.length) fresh) x.pos buf)
        (x.pos + buf.length) (x.pos + buf.length), toSigned buf.length) := by
  have hlen := length_reallocBytes (s.data x.dirent) (x.pos + buf.length) fresh
  have hlen' : (replaceAt (reallocBytes (s.data x.dirent) (x.pos + buf.length) fresh) x.pos buf).length =
      x.pos + buf.length := by
    rw [length_replaceAt (by rw [hlen]; omega), hlen, Nat.max_self]
  unfold dfsRamfsWrite
  dsimp only
  rw [Nat.mod_eq_of_lt hend, if_pos htop]
  dsimp only [Option.map_some]
  rw [if_neg (by rw [Option.getD_some, hlen]; omega)]
  unfold store
  rw [hlen']

/-- A write within the file in the descriptor, or one whose end is beyond the largest address: it goes to the block as it
is. -/
theorem write_within (s : Ramfs D F) {buf : List UInt8} (hbuf : buf ≠ []) (block : Option (Nat → UInt8))
    (htop : ¬ x.size < (x.pos + buf.length) % 2 ^ 32) (hblock : (s.content x.dirent).length = s.size x.dirent) :
    s.dfsRamfsWrite f x buf block = if s.size x.dirent < x.pos + buf.length then none
      else some (s.store f x (replaceAt (s.content x.dirent) x.pos buf) x.size ((x.pos + buf.length) % 2 ^ 32),
        toSigned buf.length) := by
  have hpos : 0 < buf.length := List.length_pos_iff.mpr hbuf
  unfold dfsRamfsWrite
  dsimp only
  rw [if_neg htop]
  dsimp only
  by_cases hfault : s.size x.dirent < x.pos + buf.length
  · rw [if_pos hfault, if_pos ⟨hbuf, by rw [← hblock] at hfault; exact hfault⟩]
  · rw [if_neg hfault, if_neg fun hc => hfault (by rw [← hblock]; exact hc.2)]
    cases hdata : s.data x.dirent with
    | none =>
      -- an entry without a block is empty
      have hnil : s.content x.dirent = [] := by
        unfold content
        rw [hdata]
        rfl
      rw [hnil] at hblock
      have hzero : 0 = s.size x.dirent := hblock
      omega
    | some bytes =>
      have hbytes : s.content x.dirent = bytes := by
        unfold content
        rw [hdata]
        rfl
      rw [hbytes] at hblock ⊢
      have hlen : (replaceAt bytes x.pos buf).length = s.size x.dirent := by
        rw [length_replaceAt (by omega)]
        omega
      unfold store
      rw [hlen]
      rfl

theorem exec_write (hx : s.fd f = some x) (buf : List UInt8) (answer : RamAnswer D) :
    s.exec (.write f buf) answer = (s.dfsRamfsWrite f x buf answer.block).map fun r => (r.1, .wrote r.2) := by
  show (s.fd f).bind _ = _
  rw [hx, Option.bind_some]

/-- A write of no bytes, as a step of the map. -/
theorem Inv.write_empty (h : s.Inv) (hx : s.fd f = some x) (answer : RamAnswer D) :
    ∃ s' out, s.exec (.write f []) answer = some (s', out) ∧ s.abs.Step (.write f [], out) s'.abs ∧ s'.Inv := by
  have hexec := exec_write hx [] answer
  rw [h.write_nil hx] at hexec
  refine ⟨_, _, hexec, (RamSpec.step_wrote rfl).mpr ?_, h⟩
  have hfiles := h.files_eq (h.fds f x hx).1
  refine ⟨_, _, _, abs_fd hx, hfiles, fun hc => absurd rfl hc, ?_⟩
  rw [replaceAt_nil, ← hfiles, List.length_nil, Nat.add_zero, ← abs_fd hx, Function.update_eq_self,
    Function.update_eq_self]

/-- Bytes that are stored as a write stores them. -/
theorem Inv.write_store (h : s.Inv) (hx : s.fd f = some x) {buf : List UInt8} {answer : RamAnswer D} {size : Nat}
    (hexec : s.exec (.write f buf) answer = some (s.store f x (replaceAt (s.content x.dirent) x.pos buf) size
      (x.pos + buf.length), .wrote (toSigned buf.length)))
    (hbuf : buf.length < 2 ^ 31) (hpos : x.pos ≤ s.size x.dirent) (hend : x.pos + buf.length < 2 ^ 32)
    (hsize : x.pos + buf.length ≤ size) (hsmall : size < 2 ^ 32) :
    ∃ s' out, s.exec (.write f buf) answer = some (s', out) ∧ s.abs.Step (.write f buf, out) s'.abs ∧ s'.Inv := by
  have hblock := h.block x.dirent
  have hle : x.pos ≤ (s.content x.dirent).length := by rw [hblock]; exact hpos
  refine ⟨_, _, hexec, ?_, ?_⟩
  · rw [h.abs_store hx]
    rw [RamSpec.step_wrote (toSigned_of_lt hbuf)]
    exact ⟨_, _, _, abs_fd hx, h.files_eq (h.fds f x hx).1, fun _ => hle, rfl⟩
  · apply h.store hx
    · rw [length_replaceAt hle, hblock]
      exact Nat.max_lt.mpr ⟨h.small x.dirent, hend⟩
    · exact hsize
    · exact hsmall

/-- **A write** that meets the condition replaces or appends its bytes. -/
theorem Inv.write_ok (h : s.Inv) (hx : s.fd f = some x) {buf : List UInt8} {answer : RamAnswer D}
    (hok : s.CallOk (.write f buf) answer) :
    ∃ s' out, s.exec (.write f buf) answer = some (s', out) ∧ s.abs.Step (.write f buf, out) s'.abs ∧ s'.Inv := by
  obtain ⟨-, hpos, hsize⟩ := h.fds f x hx
  have hblock := h.block x.dirent
  have hexec := exec_write hx buf answer
  rcases hok x hx with rfl | ⟨htop, hnone⟩ | ⟨hbuf, hend, hfits⟩
  · exact h.write_empty hx answer
  · rw [hnone, write_full s htop] at hexec
    refine ⟨_, _, hexec, ?_, h⟩
    have hne : (0 : Int) ≠ buf.length := by
      intro hc
      have hlen : buf.length = 0 := by omega
      rw [hlen] at htop
      omega
    rw [RamSpec.step_failed hne]
  · by_cases htop : x.size < x.pos + buf.length
    · rw [if_pos htop] at hfits
      cases hans : answer.block with
      | none =>
        rw [hans, write_full s (by omega)] at hexec
        refine ⟨_, _, hexec, ?_, h⟩
        rw [RamSpec.step_failed (by dsimp only; omega)]
      | some fresh =>
        rw [hans, write_grow s hend htop] at hexec
        have hbytes : replaceAt (reallocBytes (s.data x.dirent) (x.pos + buf.length) fresh) x.pos buf =
            replaceAt (s.content x.dirent) x.pos buf := by
          apply replaceAt_realloc
          · rw [← hblock] at hfits
            exact hfits.1
          · rw [← hblock] at hfits
            exact hfits.2
        rw [hbytes] at hexec
        exact h.write_store hx hexec hbuf hfits.1 hend (Nat.le_refl _) hend
    · rw [if_neg htop] at hfits
      by_cases hnil : buf = []
      · subst hnil
        exact h.write_empty hx answer
      · rw [write_within s hnil answer.block (by omega) hblock, if_neg (by omega), Nat.mod_eq_of_lt hend] at hexec
        exact h.write_store hx hexec hbuf (by omega) hend (by omega) hsize

/-- A write that keeps its promise meets the condition. -/
theorem Inv.ok_of_write (h : s.Inv) (hx : s.fd f = some x) {buf : List UInt8} (hbuf : buf.length < 2 ^ 32)
    {answer : RamAnswer D} (hkept : s.Kept (.write f buf) answer) : s.CallOk (.write f buf) answer := by
  obtain ⟨hmem, hpos, hsize⟩ := h.fds f x hx
  have hblock := h.block x.dirent
  have hsmall := h.small x.dirent
  obtain ⟨s', out, hexec, hstep⟩ := hkept
  rw [exec_write hx] at hexec
  intro y hy
  obtain rfl : x = y := Option.some.inj (hx.symm.trans hy)
  by_cases hnil : buf = []
  · exact .inl hnil
  by_cases hfull : x.size < (x.pos + buf.length) % 2 ^ 32 ∧ answer.block = none
  · exact .inr (.inl hfull)
  refine .inr (.inr ?_)
  have hlen : 0 < buf.length := List.length_pos_iff.mpr hnil
  -- the map after a write that has stored its bytes
  have hstored : ∀ {bytes : List UInt8} {size pos : Nat},
      s.abs.Step (.write f buf, .wrote (toSigned buf.length)) (s.store f x bytes size pos).abs → pos ≠ x.pos →
      buf.length < 2 ^ 31 ∧ x.pos ≤ s.size x.dirent ∧ bytes.length = max (s.size x.dirent) (x.pos + buf.length) := by
    intro bytes size pos hst hne
    rw [h.abs_store hx] at hst
    by_cases hres : toSigned buf.length = buf.length
    · rw [RamSpec.step_wrote hres] at hst
      obtain ⟨name, p, content, hfd, hfiles, hle, habs⟩ := hst
      obtain ⟨rfl, rfl⟩ := Prod.mk.inj (Option.some.inj ((abs_fd hx).symm.trans hfd))
      obtain rfl := Option.some.inj ((h.files_eq hmem).symm.trans hfiles)
      have hbytes := congrFun (congrArg RamSpec.files habs) (s.entryName x.dirent)
      dsimp only at hbytes
      rw [Function.update_self, Function.update_self] at hbytes
      rw [Option.some.inj hbytes, length_replaceAt (hle hnil), hblock]
      refine ⟨?_, by rw [← hblock]; exact hle hnil, rfl⟩
      by_contra hbig
      have hneg := toSigned_ne hbig hbuf
      omega
    · rw [RamSpec.step_failed hres] at hst
      have hfd := congrFun (congrArg RamSpec.fd hst) f
      dsimp only at hfd
      rw [Function.update_self, abs_fd hx] at hfd
      exact absurd (Prod.mk.inj (Option.some.inj hfd)).2 hne
  by_cases htop : x.size < (x.pos + buf.length) % 2 ^ 32
  · have hend : x.pos + buf.length < 2 ^ 32 := by omega
    rw [Nat.mod_eq_of_lt hend] at htop
    cases hans : answer.block with
    | none => exact absurd ⟨by rw [Nat.mod_eq_of_lt hend]; exact htop, hans⟩ hfull
    | some fresh =>
      rw [hans, write_grow s hend htop] at hexec
      obtain ⟨rfl, rfl⟩ := Prod.mk.inj (Option.some.inj hexec)
      obtain ⟨hint, hle, hbytes⟩ := hstored hstep (by omega)
      rw [length_replaceAt (by rw [length_reallocBytes]; omega), length_reallocBytes] at hbytes
      refine ⟨hint, hend, ?_⟩
      rw [if_pos htop]
      exact ⟨hle, by omega⟩
  · rw [write_within s hnil answer.block htop hblock] at hexec
    by_cases hfault : s.size x.dirent < x.pos + buf.length
    · rw [if_pos hfault] at hexec
      exact absurd hexec nofun
    · rw [if_neg hfault] at hexec
      have hend : x.pos + buf.length < 2 ^ 32 := by omega
      rw [Nat.mod_eq_of_lt hend] at hexec htop
      obtain ⟨rfl, rfl⟩ := Prod.mk.inj (Option.some.inj hexec)
      obtain ⟨hint, -, -⟩ := hstored hstep (by omega)
      refine ⟨hint, hend, ?_⟩
      rw [if_neg htop]
      omega

/-! ## Opens -/

theorem abs_attach (s : Ramfs D F) (f : F) (d : D) (flags : OpenFlags) :
    (s.attach f d flags).abs =
      { s.abs with fd := Function.update s.abs.fd f (some (s.entryName d, if flags.append then s.size d else 0)) } := by
  unfold attach
  rw [abs_setFd]
  rfl

theorem Inv.attach (h : s.Inv) (hd : d ∈ s.entries) (f : F) (flags : OpenFlags) : (s.attach f d flags).Inv := by
  apply h.setFd
  rintro x ⟨⟩
  refine ⟨hd, ?_, h.small d⟩
  dsimp only
  split <;> omega

/-- What an open does with a file that exists or has been created. -/
def opened (s : Ramfs D F) (f : F) (d : D) (flags : OpenFlags) : Ramfs D F :=
  (if flags.trunc then s.truncate d else s).attach f d flags

omit [DecidableEq F] in
theorem content_truncate (s : Ramfs D F) (d e : D) : (s.truncate d).content e = if e = d then [] else s.content e := by
  show (Function.update s.data d none e).getD [] = _
  by_cases he : e = d
  · rw [he, Function.update_self, if_pos rfl]
    rfl
  · rw [Function.update_of_ne he, if_neg he]
    rfl

omit [DecidableEq F] in
theorem Inv.truncate (h : s.Inv) (d : D) : (s.truncate d).Inv where
  block e := by
    rw [content_truncate]
    show _ = Function.update s.size d 0 e
    by_cases he : e = d
    · rw [he, if_pos rfl, Function.update_self]
      rfl
    · rw [if_neg he, Function.update_of_ne he]
      exact h.block e
  small e := by
    show Function.update s.size d 0 e < _
    by_cases he : e = d
    · rw [he, Function.update_self]
      exact Nat.two_pow_pos 32
    · rw [Function.update_of_ne he]
      exact h.small e
  fds := h.fds
  short := h.short
  distinct := h.distinct
  root := h.root

/-- The map after an open that succeeds. -/
theorem Inv.abs_opened (h : s.Inv) (hd : d ∈ s.entries) (f : F) (flags : OpenFlags) {bytes : List UInt8}
    (hbytes : bytes = if flags.trunc then [] else s.content d) :
    (s.opened f d flags).abs =
      { files := Function.update s.abs.files (s.entryName d) (some bytes)
        fd := Function.update s.abs.fd f (some (s.entryName d, if flags.append then bytes.length else 0)) } := by
  have htrunc : (s.truncate d).abs.files = Function.update s.abs.files (s.entryName d) (some []) :=
    h.files_update hd rfl rfl rfl (content_truncate s d)
  unfold Ramfs.opened
  rw [abs_attach]
  cases ht : flags.trunc with
  | true =>
    rw [ht] at hbytes
    rw [if_pos rfl, hbytes, if_pos rfl, ← htrunc]
    show RamSpec.mk _ (Function.update _ _ (some (_, if _ then Function.update s.size d 0 d else 0))) = _
    rw [Function.update_self]
    rfl
  | false =>
    rw [ht] at hbytes
    rw [if_neg Bool.false_ne_true, hbytes, if_neg Bool.false_ne_true, ← h.files_eq hd, Function.update_eq_self,
      h.block]

theorem Inv.opened (h : s.Inv) (hd : d ∈ s.entries) (f : F) (flags : OpenFlags) : (s.opened f d flags).Inv := by
  unfold Ramfs.opened
  split
  · exact (h.truncate d).attach hd f flags
  · exact h.attach hd f flags

section AddEntry

omit [DecidableEq F]

variable {name : List Char}

theorem entryName_addEntry (hd : d ≠ s.root) (hshort : name.length < ramfsNameMax) (e : D) :
    (s.addEntry d name).entryName e = if e = d then name else s.entryName e := by
  show (if e = s.root then [] else Function.update s.name d (name.take ramfsNameMax) e) = _
  by_cases he : e = d
  · rw [he, if_neg hd, Function.update_self, if_pos rfl, List.take_of_length_le (Nat.le_of_lt hshort)]
  · rw [Function.update_of_ne he, if_neg he]
    rfl

theorem content_addEntry (s : Ramfs D F) (d : D) (name : List Char) (e : D) :
    (s.addEntry d name).content e = if e = d then [] else s.content e := content_truncate s d e

theorem mem_addEntry : e ∈ (s.addEntry d name).entries ↔ e = d ∨ e ∈ s.entries := by
  show e ∈ s.root :: d :: s.list ↔ e = d ∨ e ∈ s.root :: s.list
  rw [List.mem_cons, List.mem_cons, List.mem_cons]
  exact or_left_comm

/-- A new entry keeps the invariant, if there was none with its name. -/
theorem Inv.addEntry (h : s.Inv) (hroot : d ≠ s.root) (hshort : name.length < ramfsNameMax)
    (hname : ∀ e ∈ s.entries, s.entryName e ≠ name) : (s.addEntry d name).Inv where
  block := (h.truncate d).block
  small := (h.truncate d).small
  fds f x hx := by
    obtain ⟨hmem, hpos, hsize⟩ := h.fds f x hx
    exact ⟨mem_addEntry.mpr (.inr hmem), hpos, hsize⟩
  short e he := by
    show (Function.update s.name d (name.take ramfsNameMax) e).length < ramfsNameMax
    by_cases hed : e = d
    · rw [hed, Function.update_self, List.take_of_length_le (Nat.le_of_lt hshort)]
      exact hshort
    · rw [Function.update_of_ne hed]
      exact h.short e ((List.mem_cons.mp he).resolve_left hed)
  distinct e he e' he' heq := by
    rw [entryName_addEntry hroot hshort, entryName_addEntry hroot hshort] at heq
    have hold : ∀ e ∈ (s.addEntry d name).entries, e ≠ d → e ∈ s.entries := fun e he hed =>
      (mem_addEntry.mp he).resolve_left hed
    by_cases hed : e = d
    · by_cases hed' : e' = d
      · exact hed.trans hed'.symm
      · rw [if_pos hed, if_neg hed'] at heq
        exact absurd heq.symm (hname e' (hold e' he' hed'))
    · by_cases hed' : e' = d
      · rw [if_neg hed, if_pos hed'] at heq
        exact absurd heq (hname e (hold e he hed))
      · rw [if_neg hed, if_neg hed'] at heq
        exact h.distinct e (hold e he hed) e' (hold e' he' hed') heq
  root hr := by
    rcases List.mem_cons.mp hr with hr | hr
    · exact hroot hr.symm
    · exact h.root hr

/-- The map with a new entry. -/
theorem Inv.abs_addEntry (h : s.Inv) (hroot : d ≠ s.root) (hnew : d ∉ s.list) (hshort : name.length < ramfsNameMax)
    (hname : ∀ e ∈ s.entries, s.entryName e ≠ name) :
    (s.addEntry d name).abs = { s.abs with files := Function.update s.abs.files name (some []) } := by
  have hinv := h.addEntry hroot hshort hname
  have hne : ∀ e ∈ s.entries, e ≠ d := by
    rintro e he rfl
    rcases List.mem_cons.mp he with hr | hl
    · exact hroot hr
    · exact hnew hl
  have hfiles : (s.addEntry d name).abs.files = Function.update s.abs.files name (some []) := by
    funext n
    by_cases hn : n = name
    · have hd : d ∈ (s.addEntry d name).entries := List.mem_cons_of_mem _ List.mem_cons_self
      have hfile := hinv.files_eq hd
      rw [entryName_addEntry hroot hshort, if_pos rfl, content_addEntry, if_pos rfl] at hfile
      rw [hn, Function.update_self, hfile]
    · rw [Function.update_of_ne hn]
      cases hfind : s.entries.find? fun e => s.entryName e = n with
      | some e =>
        obtain ⟨he, rfl⟩ := find_entry hfind
        have hfile := hinv.files_eq (mem_addEntry.mpr (.inr he))
        rw [entryName_addEntry hroot hshort, if_neg (hne e he), content_addEntry, if_neg (hne e he)] at hfile
        rw [hfile, h.files_eq he]
      | none =>
        have hleft : s.abs.files n = none := by
          show (s.entries.find? fun e => s.entryName e = n).map _ = none
          rw [hfind]
          rfl
        rw [hleft]
        show ((s.addEntry d name).entries.find? fun e => (s.addEntry d name).entryName e = n).map _ = none
        rw [Option.map_eq_none_iff, List.find?_eq_none]
        intro e he hen
        replace hen := of_decide_eq_true hen
        rw [entryName_addEntry hroot hshort] at hen
        by_cases hed : e = d
        · rw [if_pos hed] at hen
          exact hn hen.symm
        · rw [if_neg hed] at hen
          exact List.find?_eq_none.mp hfind e ((mem_addEntry.mp he).resolve_left hed) (decide_eq_true hen)
  have hfd : (s.addEntry d name).abs.fd = s.abs.fd := by
    funext f
    show (s.fd f).map _ = (s.fd f).map _
    cases hx : s.fd f with
    | none => rfl
    | some x =>
      have hed := hne x.dirent (h.fds f x hx).1
      rw [Option.map_some, Option.map_some, entryName_addEntry hroot hshort, if_neg hed]
  dsimp only
  rw [← hfiles, ← hfd]

end AddEntry

/-- **An open** that meets the condition finds the file of its name, creates it or truncates it, or fails. -/
theorem Inv.open_ok (h : s.Inv) {path : List Char} {flags : OpenFlags} {answer : RamAnswer D}
    (hfresh : ∀ d, answer.entry = some d → d ≠ s.root ∧ d ∉ s.list) (hok : s.CallOk (.openFd f path flags) answer) :
    ∃ s' out, s.exec (.openFd f path flags) answer = some (s', out) ∧
      s.abs.Step (.openFd f path flags, out) s'.abs ∧ s'.Inv := by
  obtain ⟨hshort, hdir⟩ := hok
  have hlookup := h.lookup_eq path
  have hexec : s.exec (.openFd f path flags) answer =
      (s.dfsRamfsOpen f path flags answer.entry).map fun r => (r.1, .opened r.2) := rfl
  have hfail : ∀ err, s.dfsRamfsOpen f path flags answer.entry = some (s, some err) →
      ∃ s' out, s.exec (.openFd f path flags) answer = some (s', out) ∧
        s.abs.Step (.openFd f path flags, out) s'.abs ∧ s'.Inv := by
    intro err herr
    rw [herr] at hexec
    exact ⟨_, _, hexec, rfl, h⟩
  cases hfind : s.entries.find? fun d => s.entryName d = subpath path with
  | some d =>
    rw [hfind] at hlookup
    obtain ⟨hd, hname⟩ := find_entry hfind
    have hfile := h.files_eq hd
    rw [hname] at hfile
    -- the file is there, and is opened as it is or truncated
    have hopen : s.dfsRamfsOpen f path flags answer.entry = some (s.opened f d flags, none) →
        ∃ s' out, s.exec (.openFd f path flags) answer = some (s', out) ∧
          s.abs.Step (.openFd f path flags, out) s'.abs ∧ s'.Inv := by
      intro hr
      rw [hr] at hexec
      refine ⟨_, _, hexec, ⟨fun hnone => absurd (hfile.symm.trans hnone) nofun, ?_⟩, h.opened hd f flags⟩
      have habs := h.abs_opened hd f flags rfl
      rw [hname] at habs
      rw [hfile]
      exact habs
    by_cases hdirectory : flags.directory = true
    · by_cases hcreat : flags.creat = true
      · apply hfail .enospc
        unfold dfsRamfsOpen
        rw [if_pos hdirectory, if_pos hcreat]
      · have hr : s.dfsRamfsOpen f path flags answer.entry = some (s.attach f d flags, none) := by
          unfold dfsRamfsOpen
          rw [if_pos hdirectory, if_neg hcreat, hlookup]
        rw [hr] at hexec
        refine ⟨_, _, hexec, ⟨fun hnone => absurd (hfile.symm.trans hnone) nofun, ?_⟩, h.attach hd f flags⟩
        dsimp only
        have hbytes : (if flags.trunc then [] else ((s.abs.files (subpath path)).getD [])) = s.content d := by
          rw [hfile]
          split
          next ht => exact (hdir hdirectory ht (Bool.eq_false_iff.mpr hcreat) d hlookup).symm
          next => rfl
        rw [hbytes, abs_attach, hname, h.block, ← hfile, Function.update_eq_self]
    · by_cases hroot : d = s.root
      · apply hfail .enoent
        unfold dfsRamfsOpen
        rw [if_neg hdirectory, hlookup]
        exact if_pos hroot
      · apply hopen
        unfold dfsRamfsOpen
        rw [if_neg hdirectory, hlookup]
        exact if_neg hroot
  | none =>
    rw [hfind] at hlookup
    have hnone : s.abs.files (subpath path) = none := by
      show (s.entries.find? fun d => s.entryName d = subpath path).map _ = none
      rw [hfind]
      rfl
    have hnames : ∀ e ∈ s.entries, s.entryName e ≠ subpath path := fun e he hn =>
      List.find?_eq_none.mp hfind e he (decide_eq_true hn)
    by_cases hdirectory : flags.directory = true
    · by_cases hcreat : flags.creat = true
      · apply hfail .enospc
        unfold dfsRamfsOpen
        rw [if_pos hdirectory, if_pos hcreat]
      · apply hfail .enoent
        unfold dfsRamfsOpen
        rw [if_pos hdirectory, if_neg hcreat, hlookup]
    · by_cases hmake : flags.creat = true ∨ flags.wronly = true
      · cases hans : answer.entry with
        | none =>
          apply hfail .enomem
          unfold dfsRamfsOpen
          rw [if_neg hdirectory, hlookup, hans]
          exact if_pos hmake
        | some d =>
          obtain ⟨hroot, hnew⟩ := hfresh d hans
          have hinv := h.addEntry hroot hshort hnames
          have hd : d ∈ (s.addEntry d (subpath path)).entries := mem_addEntry.mpr (.inl rfl)
          have hr : s.dfsRamfsOpen f path flags answer.entry =
              some ((s.addEntry d (subpath path)).opened f d flags, none) := by
            unfold dfsRamfsOpen
            rw [if_neg hdirectory, hlookup, hans]
            exact if_pos hmake
          rw [hr] at hexec
          refine ⟨_, _, hexec, ⟨fun _ => hmake, ?_⟩, hinv.opened hd f flags⟩
          have hbytes : (if flags.trunc then [] else ((s.abs.files (subpath path)).getD [])) =
              if flags.trunc then [] else (s.addEntry d (subpath path)).content d := by
            rw [hnone, content_addEntry, if_pos rfl]
            rfl
          dsimp only
          rw [hinv.abs_opened hd f flags hbytes, h.abs_addEntry hroot hnew hshort hnames,
            entryName_addEntry hroot hshort, if_pos rfl, Function.update_idem]
      · apply hfail .enoent
        unfold dfsRamfsOpen
        rw [if_neg hdirectory, hlookup]
        exact if_neg hmake

/-! ## Runs -/

/-- The condition on a step. -/
def StepOk (s : Ramfs D F) (l : (RamCall F × RamAnswer D) × RamOut) : Prop := s.CallOk l.1.1 l.1.2

omit [DecidableEq F] in
instance (s : Ramfs D F) (l : (RamCall F × RamAnswer D) × RamOut) : Decidable (s.StepOk l) :=
  inferInstanceAs (Decidable (s.CallOk l.1.1 l.1.2))

/-- **One call.** -/
theorem Inv.call_ok (h : s.Inv) {call : RamCall F} {answer : RamAnswer D} (hen : s.Enabled call answer)
    (hok : s.CallOk call answer) :
    ∃ s' out, s.exec call answer = some (s', out) ∧ s.abs.Step (call, out) s'.abs ∧ s'.Inv := by
  obtain ⟨hfd, hfresh⟩ := hen
  cases call with
  | openFd f path flags => exact h.open_ok hfresh hok
  | read f count =>
    obtain ⟨x, hx⟩ := Option.isSome_iff_exists.mp hfd.1
    exact h.read_ok hx hok
  | write f buf =>
    obtain ⟨x, hx⟩ := Option.isSome_iff_exists.mp hfd.1
    exact h.write_ok hx hok
  | lseek f offset =>
    obtain ⟨x, hx⟩ := Option.isSome_iff_exists.mp hfd
    obtain ⟨hmem, hpos, hsize⟩ := h.fds f x hx
    have hexec : s.exec (.lseek f offset) answer =
        some ((s.dfsRamfsLseek f x offset).1, .sought (s.dfsRamfsLseek f x offset).2) := by
      show (s.fd f).map _ = _
      rw [hx, Option.map_some]
    unfold dfsRamfsLseek at hexec
    by_cases hle : (offset : Int) ≤ toSigned x.size
    · rw [if_pos hle] at hexec
      refine ⟨_, _, hexec, ⟨_, _, abs_fd hx, ?_⟩, ?_⟩
      · rw [abs_setFd]
        rfl
      · apply h.setFd
        rintro y ⟨⟩
        refine ⟨hmem, ?_, hsize⟩
        unfold toSigned at hle
        dsimp only
        split at hle <;> omega
    · rw [if_neg hle] at hexec
      exact ⟨_, _, hexec, rfl, h⟩
  | close f =>
    refine ⟨_, _, rfl, ?_, h.setFd nofun⟩
    rw [abs_setFd]
    rfl

omit [DecidableEq F] in
theorem abs_init (root : D) : (init root : Ramfs D F).abs = RamSpec.init := by
  have hfiles : (init root : Ramfs D F).abs.files = RamSpec.init.files (F := F) := by
    funext name
    show ([root].find? fun d => (init root : Ramfs D F).entryName d = name).map _ = if name = [] then some [] else none
    have hroot : (init root : Ramfs D F).entryName root = [] := entryName_root _
    rw [List.find?_cons, hroot]
    by_cases hname : name = []
    · rw [if_pos hname, decide_eq_true hname.symm]
      rfl
    · rw [if_neg hname, decide_eq_false fun hn => hname hn.symm]
      rfl
  show RamSpec.mk _ _ = RamSpec.mk _ _
  exact congrArg₂ RamSpec.mk hfiles rfl

/-- **The ramfs is a map from names to byte strings.** A run in which every call meets the condition is a run of the map;
and in the state that it reaches, every call that meets the condition keeps its promise, and no other one does, but for
those that open a file. -/
theorem ramfs_refines {root : D} {ls : List ((RamCall F × RamAnswer D) × RamOut)}
    (hrun : Run (Guarded StepOk Step) (init root) ls s) :
    Run RamSpec.Step RamSpec.init (ls.map fun l => (l.1.1, l.2)) s.abs ∧
      ∀ call answer, s.Enabled call answer → (s.CallOk call answer → s.Kept call answer) ∧
        ((∀ f path flags, call ≠ .openFd f path flags) → s.Kept call answer → s.CallOk call answer) := by
  have hsim : ∃ a, Run RamSpec.Step RamSpec.init (ls.flatMap fun l => [(l.1.1, l.2)]) a ∧ s.Inv ∧ a = s.abs := by
    apply hrun.simulate (fun l => [(l.1.1, l.2)]) (R := fun s a => s.Inv ∧ a = s.abs)
    · exact ⟨inv_init root, (abs_init root).symm⟩
    · rintro s ⟨⟨call, answer⟩, out⟩ s' a ⟨hinv, rfl⟩ ⟨hok, hen, hexec⟩
      obtain ⟨s'', out', hexec', hstep, hinv'⟩ := hinv.call_ok hen hok
      obtain ⟨rfl, rfl⟩ := Prod.mk.inj (Option.some.inj (hexec.symm.trans hexec'))
      exact ⟨_, .single hstep, hinv', rfl⟩
  obtain ⟨a, habs, hinv, rfl⟩ := hsim
  rw [← List.map_eq_flatMap] at habs
  refine ⟨habs, fun call answer hen => ⟨fun hok => ?_, fun hopen hkept => ?_⟩⟩
  · obtain ⟨s', out, hexec, hstep, -⟩ := hinv.call_ok hen hok
    exact ⟨s', out, hexec, hstep⟩
  · cases call with
    | openFd f path flags => exact absurd rfl (hopen f path flags)
    | read f count =>
      obtain ⟨x, hx⟩ := Option.isSome_iff_exists.mp hen.1.1
      exact hinv.ok_of_read hx hkept
    | write f buf =>
      obtain ⟨x, hx⟩ := Option.isSome_iff_exists.mp hen.1.1
      exact hinv.ok_of_write hx hen.1.2 hkept
    | lseek | close => trivial

/-- A call with a result that is expected, if it can be made and has that result. -/
def tryCall (s : Ramfs D F) (l : (RamCall F × RamAnswer D) × RamOut) : Option (Ramfs D F) :=
  if s.Enabled l.1.1 l.1.2 then
    match s.exec l.1.1 l.1.2 with
    | some (s', out) => if out = l.2 then some s' else none
    | none => none
  else none

theorem step_of_tryCall {l : (RamCall F × RamAnswer D) × RamOut} (h : s.tryCall l = some s') : s.Step l s' := by
  unfold tryCall at h
  split at h
  next hen =>
    split at h
    next s'' out hexec =>
      split at h
      next hout =>
        obtain rfl := Option.some.inj h
        exact ⟨hen, hout ▸ hexec⟩
      next => exact absurd h nofun
    next => exact absurd h nofun
  next => exact absurd h nofun

/-- A file is created, written and read. -/
theorem ramfs_refines_run : ∃ (ls : List ((RamCall Bool × RamAnswer Nat) × RamOut)) (s : Ramfs Nat Bool),
    s.abs.files ['a'] = some [1, 2] ∧ Run RamSpec.Step RamSpec.init (ls.map fun l => (l.1.1, l.2)) s.abs ∧
      ∀ call answer, s.Enabled call answer → (s.CallOk call answer → s.Kept call answer) ∧
        ((∀ f path flags, call ≠ .openFd f path flags) → s.Kept call answer → s.CallOk call answer) := by
  have hexec : ((([((.openFd true ['/', 'a'] { creat := true }, ⟨some 1, none⟩), .opened none),
      ((.write true [1, 2], ⟨none, some fun _ => 0⟩), .wrote 2), ((.lseek true 0, ⟨none, none⟩), .sought none),
      ((.read true 5, ⟨none, none⟩), .read 2 [1, 2])] : List ((RamCall Bool × RamAnswer Nat) × RamOut)).foldlM
        (fun s l => if StepOk s l then tryCall s l else none) (init 0)).map
          fun s : Ramfs Nat Bool => s.abs.files ['a']) = some (some [1, 2]) := by decide +kernel
  obtain ⟨s, hs, hobs⟩ := Option.map_eq_some_iff.mp hexec
  exact ⟨_, s, hobs, ramfs_refines (Run.of_foldlM_guarded (G := StepOk) (fun _ _ _ => step_of_tryCall) hs)⟩

/-- **A file that becomes shorter.** It is opened twice, while it is empty. Two bytes are written through the first
descriptor, and then one byte through the second: the block is reallocated to one byte. -/
theorem ramfs_not_refines : ¬ ∀ (ls : List ((RamCall Bool × RamAnswer Nat) × RamOut)) (s : Ramfs Nat Bool)
    (call : RamCall Bool) (answer : RamAnswer Nat), Run Step (init 0) ls s → s.Enabled call answer →
      s.Kept call answer := by
  intro hall
  have hexec : ((([((.openFd true ['/', 'a'] { creat := true }, ⟨some 1, none⟩), .opened none),
      ((.openFd false ['/', 'a'] {}, ⟨none, none⟩), .opened none),
      ((.write true [1, 2], ⟨none, some fun _ => 0⟩), .wrote 2)] :
        List ((RamCall Bool × RamAnswer Nat) × RamOut)).foldlM tryCall (init 0)).map fun s : Ramfs Nat Bool =>
          decide (s.abs.files ['a'] = some [1, 2] ∧ s.abs.fd false = some (['a'], 0) ∧
            s.Enabled (.write false [3]) ⟨none, some fun _ => 0⟩ ∧
            (s.exec (.write false [3]) ⟨none, some fun _ => 0⟩).map (fun r => (r.1.abs.files ['a'], r.2)) =
              some (some [3], .wrote 1))) = some true := by decide +kernel
  obtain ⟨s, hs, hobs⟩ := Option.map_eq_some_iff.mp hexec
  obtain ⟨hfiles, hfd, hen, hcall⟩ := of_decide_eq_true hobs
  obtain ⟨s', out, hout, hstep⟩ := hall _ s _ _ (Run.of_foldlM (fun _ _ _ => step_of_tryCall) hs) hen
  rw [hout, Option.map_some] at hcall
  obtain ⟨hfiles', rfl⟩ := Prod.mk.inj (Option.some.inj hcall)
  obtain ⟨name, pos, content, hn, hc, -, habs⟩ := (RamSpec.step_wrote rfl).mp hstep
  obtain ⟨rfl, rfl⟩ := Prod.mk.inj (Option.some.inj (hfd.symm.trans hn))
  obtain rfl := Option.some.inj (hfiles.symm.trans hc)
  rw [habs] at hfiles'
  dsimp only at hfiles'
  rw [Function.update_self] at hfiles'
  exact absurd hfiles' (by decide)

end Ramfs

end CoreLink.RtThread
