import Mathlib.Data.Nat.ModEq
import DataSpaces.ConfFile
import DataSpaces.Lib.Scan

/-!
# Bootstrap — how clients find the servers (`write_conf`, `read_conf`, `choose_server`)

The servers tell each other their addresses and the names of their nodes, and one of them writes them to
`conf.ds`.  A client reads every line twice, once for the lengths of the words and once for the words, and then
chooses one of the servers, on its own node if there is one.
-/

namespace DataSpaces

open Scan (Value scanf decimal)

/-! ## The servers -/

abbrev HOST_NAME_MAX : Nat := 64

/-- A server process: the name of its node, and its address. -/
structure ServerProc where
  host : CStr
  addr : CStr

/-- `sizes_psum`. -/
def sizesPsum (sum : Nat) : List Nat → List Nat
  | [] => []
  | size :: strSizes => sum :: sizesPsum (sum + size) strSizes

/-- `buf_size`, an `int`: all strings with the zeros that end them. -/
def bufSize (strs : List CStr) : Nat :=
  (strs.map fun str => str.length + 1).sum

/-- The string at an address of a memory. -/
def cstrAt (strBuf : List UInt8) (pos : Nat) : CStr :=
  (strBuf.drop pos).takeWhile (· ≠ 0)

/-- What every server has of the strings of all of them after `MPI_Allgather` and `MPI_Allgatherv`; nothing once
`buf_size` is past the largest `int`. -/
def gatherStrings (strs : List CStr) : Option (List CStr) :=
  let strSizes := strs.map fun str => str.length + 1
  let strBuf := strs.flatMap fun str => str ++ [0]
  if bufSize strs ≤ INT_MAX then some ((sizesPsum 0 strSizes).map (cstrAt strBuf)) else none

/-- `server_address`. -/
def serverAddress (procs : List ServerProc) : Option (List CStr) :=
  gatherStrings (procs.map ServerProc.addr)

/-- The name of the node as `gethostname` leaves it in `my_node_str`. -/
def myNodeStr (proc : ServerProc) : CStr :=
  proc.host.take (HOST_NAME_MAX - 1)

/-- `node_names`. -/
def nodeNames (procs : List ServerProc) : Option (List CStr) :=
  gatherStrings (procs.map myNodeStr)

/-- The lines of the servers. -/
def confLines : List CStr → List CStr → List UInt8
  | name :: names, addr :: addrs => name ++ 32 :: (addr ++ 10 :: confLines names addrs)
  | _, _ => []

/-- `write_conf`: what is in `conf.ds`. -/
def writeConf (procs : List ServerProc) (listenAddrStr : CStr) : Option (List UInt8) := do
  let addrs ← serverAddress procs
  let names ← nodeNames procs
  return decimal procs.length ++ 10 :: (confLines names addrs ++ (listenAddrStr ++ [10]))

/-! ## A client -/

/-- A string that is read: the argument of its `malloc`, and what was written to it.  A negative argument asks for
more memory than there is. -/
structure StrBuf where
  allocated : Int
  text : Option CStr

/-- The text has room, with the zero that ends it. -/
def StrBuf.Fits (buf : StrBuf) : Prop :=
  ∀ text, buf.text = some text → (text.length + 1 : Int) ≤ buf.allocated

/-- `size` after a call: `%n` stores an `int`. -/
def sizeAfter (size : Int32) : List Value → Int32
  | .count n :: _ => Int32.ofNat n
  | _ => size

/-- `size_sp` after the first call. -/
def sizeSpAfter : List Value → Int32
  | .number n :: _ => (clampLong n).toInt32
  | _ => 0

/-- The strings that a call stores. -/
def firstText : List Value → Option CStr
  | .text text :: _ => some text
  | _ => none

def secondText : List Value → Option CStr
  | _ :: .text text :: _ => some text
  | _ => none

/-- One turn of the loop of `read_conf`, with `size` as it was before. -/
def readEntry (size : Int32) (lstart : List UInt8) : (StrBuf × StrBuf) × Int32 × List UInt8 :=
  let (stored, fd) := scanf [.skipWord, .count] lstart
  let size := sizeAfter size stored
  let nameSize := size + 1
  let (stored, _) := scanf [.skipWord, .count, .space] fd
  let size := sizeAfter size stored
  let addrSize := size + 1
  -- back to the start of the line
  let (stored, fd) := scanf [.word, .space, .word, .space] lstart
  ((⟨nameSize.toInt, firstText stored⟩, ⟨addrSize.toInt, secondText stored⟩), size, fd)

def readEntries : Nat → Int32 → List UInt8 → List (StrBuf × StrBuf) × Int32 × List UInt8
  | 0, size, fd => ([], size, fd)
  | n + 1, size, fd =>
      let (entry, size, fd) := readEntry size fd
      let (entries, size, fd) := readEntries n size fd
      (entry :: entries, size, fd)

/-- The last line, in the same way. -/
def readListenAddr (size : Int32) (lstart : List UInt8) : StrBuf :=
  let (stored, _) := scanf [.skipWord, .count, .space] lstart
  let size := sizeAfter size stored
  let (stored, _) := scanf [.word, .space] lstart
  ⟨(size + 1).toInt, firstText stored⟩

/-- What a client has of `conf.ds`: `node_names` and `server_address`, and `listen_addr_str`. -/
structure ClientConf where
  sizeSp : Int32
  servers : List (StrBuf × StrBuf)
  listenAddrStr : StrBuf

/-- `read_conf` of the text of `conf.ds`, which `read_conf_mpi` gets from one client and reads in the same way.
`size` is not set before the first turn. -/
def readConf (size : Int32) (fd : List UInt8) : ClientConf :=
  let (stored, fd) := scanf [.number, .space] fd
  let sizeSp := sizeSpAfter stored
  let (servers, size, lstart) := readEntries sizeSp.toInt.toNat size fd
  ⟨sizeSp, servers, readListenAddr size lstart⟩

/-- The server of the node after `matchCount` others of it. -/
def findMatch (myNodeName : CStr) : Nat → Nat → List CStr → Option Nat
  | _, _, [] => none
  | i, matchCount, name :: names =>
      if myNodeName = name then
        if matchCount = 0 then some i else findMatch myNodeName (i + 1) (matchCount - 1) names
      else findMatch myNodeName (i + 1) matchCount names

/-- `choose_server`: `my_server`, which is zero before. -/
def chooseServer (myNodeName : CStr) (rank : Nat) (nodeNames : List CStr) : Nat :=
  let matchCount := nodeNames.countP (myNodeName = ·)
  if matchCount ≠ 0 then (findMatch myNodeName 0 (rank % matchCount) nodeNames).getD 0
  else rank % nodeNames.length

/-! ## Every string has room -/

section Room

variable {s : List UInt8}

theorem fits_none (allocated : Int) : StrBuf.Fits ⟨allocated, none⟩ :=
  fun _ h => nomatch h

theorem fits_some {allocated : Int} {text : CStr} (h : (text.length + 1 : Int) ≤ allocated) :
    StrBuf.Fits ⟨allocated, some text⟩ := by
  intro text' htext
  cases htext
  exact h

/-- A word has room in what is allocated for the text up to its end, if an `int` holds the number of bytes. -/
theorem fits_word {word rest : List UInt8} (hsmall : s.length < INT_MAX)
    (h : Scan.scanWord s = some (word, rest)) :
    StrBuf.Fits ⟨(Int32.ofNat (s.length - rest.length) + 1).toInt, some word⟩ := by
  have hlen := Scan.length_of_scanWord h
  rw [INT_MAX] at hsmall
  have hargument : Int32.ofNat (s.length - rest.length) + 1 = Int32.ofNat (s.length - rest.length + 1) :=
    (Int32.ofNat_add _ 1).symm
  refine fits_some ?_
  rw [hargument, Int32.toInt_ofNat_of_lt (by omega)]
  omega

theorem readEntry_fits (size : Int32) (hsmall : s.length < INT_MAX) :
    (readEntry size s).1.1.Fits ∧ (readEntry size s).1.2.Fits := by
  rw [readEntry]
  cases hname : Scan.scanWord s with
  | none =>
      -- the words are not read either
      simp only [scanf, Scan.scanfFrom, hname, firstText, secondText]
      exact ⟨fits_none _, fits_none _⟩
  | some r =>
      obtain ⟨name, rest⟩ := r
      have hrest : rest.length < INT_MAX := by
        have := Scan.length_of_scanWord hname
        omega
      cases haddr : Scan.scanWord rest with
      | none =>
          simp only [scanf, Scan.scanfFrom, hname, haddr, Scan.scanWord_skipSpaces, firstText, secondText,
            sizeAfter]
          exact ⟨fits_word hsmall hname, fits_none _⟩
      | some r' =>
          simp only [scanf, Scan.scanfFrom, hname, haddr, Scan.scanWord_skipSpaces, firstText, secondText,
            sizeAfter]
          exact ⟨fits_word hsmall hname, fits_word hrest haddr⟩

theorem length_readEntry (size : Int32) (s : List UInt8) : (readEntry size s).2.2.length ≤ s.length :=
  Scan.length_scanf [.word, .space, .word, .space] s

theorem readEntries_fits (n : Nat) : ∀ (size : Int32) (s : List UInt8), s.length < INT_MAX →
    (∀ entry ∈ (readEntries n size s).1, entry.1.Fits ∧ entry.2.Fits) ∧
      (readEntries n size s).2.2.length < INT_MAX := by
  induction n with
  | zero =>
      intro size s hsmall
      exact ⟨fun _ hentry => absurd hentry List.not_mem_nil, hsmall⟩
  | succ n ih =>
      intro size s hsmall
      have hrest := ih (readEntry size s).2.1 (readEntry size s).2.2
        ((length_readEntry size s).trans_lt hsmall)
      refine ⟨fun entry hentry => ?_, hrest.2⟩
      rcases List.mem_cons.1 hentry with rfl | hentry
      · exact readEntry_fits size hsmall
      · exact hrest.1 entry hentry

theorem readListenAddr_fits (size : Int32) (hsmall : s.length < INT_MAX) : (readListenAddr size s).Fits := by
  rw [readListenAddr]
  cases hword : Scan.scanWord s with
  | none =>
      simp only [scanf, Scan.scanfFrom, hword, firstText]
      exact fits_none _
  | some r =>
      simp only [scanf, Scan.scanfFrom, hword, firstText, sizeAfter]
      exact fits_word hsmall hword

/-- Whatever is in `conf.ds`, as long as an `int` holds the number of its bytes, no string is written past the
end of its memory. -/
theorem readConf_fits (size : Int32) (hsmall : s.length < INT_MAX) :
    (∀ entry ∈ (readConf size s).servers, entry.1.Fits ∧ entry.2.Fits) ∧
      (readConf size s).listenAddrStr.Fits := by
  have hservers := readEntries_fits (sizeSpAfter (scanf [.number, .space] s).1).toInt.toNat size
    (scanf [.number, .space] s).2 ((Scan.length_scanf _ s).trans_lt hsmall)
  exact ⟨hservers.1, readListenAddr_fits _ hservers.2⟩

/-- One server, and a listen address that is missing. -/
theorem readConf_fits_oneServer :
    (readConf 0 [49, 10, 97, 32, 98, 10]).servers.map (fun entry => (entry.1.text, entry.2.text)) =
        [(some [97], some [98])] ∧
      ∀ entry ∈ (readConf 0 [49, 10, 97, 32, 98, 10]).servers, entry.1.Fits ∧ entry.2.Fits :=
  ⟨by decide +kernel, (readConf_fits 0 (by decide)).1⟩

end Room

/-! ## What is written is read -/

/-- The name and the address are words, and the name is not cut off. -/
structure ServerProc.Ok (proc : ServerProc) : Prop where
  host : Scan.IsWord proc.host
  hostText : 0 ∉ proc.host
  short : proc.host.length < HOST_NAME_MAX
  addr : Scan.IsWord proc.addr
  addrText : 0 ∉ proc.addr

/-- Servers whose number, and the bytes of whose names and addresses, an `int` can count. -/
structure GroupOk (procs : List ServerProc) : Prop where
  each : ∀ proc ∈ procs, proc.Ok
  length : procs.length ≤ INT_MAX
  hostSize : bufSize (procs.map ServerProc.host) ≤ INT_MAX
  addrSize : bufSize (procs.map ServerProc.addr) ≤ INT_MAX

section Gather

/-- The string is found after the strings of the ranks before. -/
theorem cstrAt_append {str : CStr} (hstr : 0 ∉ str) (before rest : List UInt8) :
    cstrAt (before ++ (str ++ 0 :: rest)) before.length = str := by
  have hne : ∀ b ∈ str, decide (b ≠ 0) = true := fun b hb => decide_eq_true fun h => hstr (h ▸ hb)
  rw [cstrAt, List.drop_left, List.takeWhile_append_of_pos hne, List.takeWhile_cons_of_neg (by simp),
    List.append_nil]

theorem map_cstrAt (strs : List CStr) (hstrs : ∀ str ∈ strs, 0 ∉ str) : ∀ before : List UInt8,
    (sizesPsum before.length (strs.map fun str => str.length + 1)).map
      (cstrAt (before ++ strs.flatMap fun str => str ++ [0])) = strs := by
  induction strs with
  | nil => exact fun _ => rfl
  | cons str strs ih =>
      intro before
      have hhere := @cstrAt_append str (hstrs str List.mem_cons_self) before
        (strs.flatMap fun str => str ++ [0])
      have hafter := ih (fun str h => hstrs str (List.mem_cons_of_mem _ h)) (before ++ (str ++ [0]))
      have hlen : (before ++ (str ++ [0])).length = before.length + (str.length + 1) := by
        simp only [List.length_append, List.length_singleton]
      rw [hlen, List.append_assoc] at hafter
      rw [List.map_cons, sizesPsum, List.map_cons, List.flatMap_cons, hafter]
      simp only [List.append_assoc, List.singleton_append, hhere]

/-- Every server gets the strings of all. -/
theorem gatherStrings_eq {strs : List CStr} (hstrs : ∀ str ∈ strs, 0 ∉ str) (hsize : bufSize strs ≤ INT_MAX) :
    gatherStrings strs = some strs := by
  have hcut := map_cstrAt strs hstrs []
  rw [List.nil_append, List.length_nil] at hcut
  simp only [gatherStrings, if_pos hsize, hcut]

theorem serverAddress_eq {procs : List ServerProc} (h : GroupOk procs) :
    serverAddress procs = some (procs.map ServerProc.addr) := by
  refine gatherStrings_eq (fun str hstr => ?_) h.addrSize
  rcases List.mem_map.1 hstr with ⟨proc, hproc, rfl⟩
  exact (h.each proc hproc).addrText

theorem nodeNames_eq {procs : List ServerProc} (h : GroupOk procs) :
    nodeNames procs = some (procs.map ServerProc.host) := by
  have hcut : procs.map myNodeStr = procs.map ServerProc.host :=
    List.map_congr_left fun proc hproc =>
      List.take_of_length_le (Nat.le_sub_one_of_lt (h.each proc hproc).short)
  rw [nodeNames, hcut]
  refine gatherStrings_eq (fun str hstr => ?_) h.hostSize
  rcases List.mem_map.1 hstr with ⟨proc, hproc, rfl⟩
  exact (h.each proc hproc).hostText

/-- What is in `conf.ds`. -/
theorem writeConf_eq {procs : List ServerProc} (h : GroupOk procs) (listenAddrStr : CStr) :
    writeConf procs listenAddrStr = some (decimal procs.length ++ 10 ::
      (confLines (procs.map ServerProc.host) (procs.map ServerProc.addr) ++ (listenAddrStr ++ [10]))) := by
  simp only [writeConf, nodeNames_eq h, serverAddress_eq h, Option.bind_eq_bind, Option.bind_some, Option.pure_def]

end Gather

section Read

/-- A line is read up to the next word. -/
theorem readEntry_line {name addr : CStr} (hname : Scan.IsWord name) (haddr : Scan.IsWord addr) (size : Int32)
    (rest : List UInt8) :
    let r := readEntry size (name ++ 32 :: (addr ++ 10 :: rest))
    r.1.1.text = some name ∧ r.1.2.text = some addr ∧ r.2.2 = Scan.skipSpaces rest := by
  have hfirst : Scan.scanWord (name ++ 32 :: (addr ++ 10 :: rest)) = some (name, 32 :: (addr ++ 10 :: rest)) :=
    hname.scanWord_append (Scan.stops_cons rfl _)
  have hsecond : Scan.scanWord (32 :: (addr ++ 10 :: rest)) = some (addr, 10 :: rest) := by
    rw [Scan.scanWord_cons rfl]
    exact haddr.scanWord_append (Scan.stops_cons rfl _)
  have hend : Scan.skipSpaces (10 :: rest) = Scan.skipSpaces rest := Scan.skipSpaces_cons rfl rest
  simp only [readEntry, scanf, Scan.scanfFrom, hfirst, hsecond, Scan.scanWord_skipSpaces, firstText, secondText,
    hend, and_self]

theorem skipSpaces_confLines {procs : List ServerProc} (hprocs : ∀ proc ∈ procs, proc.Ok) {rest : List UInt8}
    (hrest : Scan.skipSpaces rest = rest) :
    Scan.skipSpaces (confLines (procs.map ServerProc.host) (procs.map ServerProc.addr) ++ rest) =
      confLines (procs.map ServerProc.host) (procs.map ServerProc.addr) ++ rest := by
  cases procs with
  | nil => exact hrest
  | cons proc procs =>
      rw [List.map_cons, List.map_cons, confLines, List.append_assoc]
      exact (hprocs proc List.mem_cons_self).host.skipSpaces_append _

/-- The lines of all servers are read. -/
theorem readEntries_confLines {rest : List UInt8} (hrest : Scan.skipSpaces rest = rest) (procs : List ServerProc)
    (hprocs : ∀ proc ∈ procs, proc.Ok) : ∀ size : Int32,
      let r := readEntries procs.length size
        (confLines (procs.map ServerProc.host) (procs.map ServerProc.addr) ++ rest)
      (r.1.map fun entry => (entry.1.text, entry.2.text)) = (procs.map fun proc => (some proc.host, some proc.addr)) ∧
        r.2.2 = rest := by
  induction procs with
  | nil => exact fun _ => ⟨rfl, rfl⟩
  | cons proc procs ih =>
      intro size
      have hproc := hprocs proc List.mem_cons_self
      have hprocs' : ∀ proc ∈ procs, proc.Ok := fun proc h => hprocs proc (List.mem_cons_of_mem _ h)
      have hline := readEntry_line hproc.host hproc.addr size
        (confLines (procs.map ServerProc.host) (procs.map ServerProc.addr) ++ rest)
      have htext : confLines ((proc :: procs).map ServerProc.host) ((proc :: procs).map ServerProc.addr) ++ rest =
          proc.host ++ 32 :: (proc.addr ++ 10 ::
            (confLines (procs.map ServerProc.host) (procs.map ServerProc.addr) ++ rest)) := by
        simp only [List.map_cons, confLines, List.append_assoc, List.cons_append]
      rw [htext]
      generalize hr : readEntry size (proc.host ++ 32 :: (proc.addr ++ 10 ::
        (confLines (procs.map ServerProc.host) (procs.map ServerProc.addr) ++ rest))) = r at hline
      obtain ⟨⟨name, addr⟩, size', fd⟩ := r
      obtain ⟨hname, haddr, hfd⟩ := hline
      rw [skipSpaces_confLines hprocs' hrest] at hfd
      have hrest' := ih hprocs' size'
      simp only [List.length_cons, readEntries, hr] at hname haddr hfd ⊢
      rw [hfd, List.map_cons, List.map_cons, hname, haddr, hrest'.1]
      exact ⟨rfl, hrest'.2⟩

theorem readListenAddr_text {listenAddrStr : CStr} (hword : Scan.IsWord listenAddrStr) (size : Int32) :
    (readListenAddr size (listenAddrStr ++ [10])).text = some listenAddrStr := by
  have hscan := hword.scanWord_append (@Scan.stops_cons 10 rfl [])
  simp only [readListenAddr, scanf, Scan.scanfFrom, hscan, firstText]

theorem sizeSpAfter_length {n : Nat} (h : n < 2 ^ 31) : (sizeSpAfter [.number n]).toInt = n := by
  have hclamp : clampLong n = Int64.ofInt n := by
    rw [clampLong, min_eq_left (by omega), max_eq_right (by omega)]
  have hlong : (Int64.ofInt n).toInt = n := Int64.toInt_ofInt_of_le (by omega) (by omega)
  rw [sizeSpAfter, hclamp, Int64.toInt_toInt32, hlong]
  exact Int.bmod_eq_of_le (by omega) (by omega)

/-- From the text that the servers write, a client gets the node and the address of every server, in the order
of their ranks. -/
theorem readConf_writeConf {procs : List ServerProc} (h : GroupOk procs) {listenAddrStr : CStr}
    (hlisten : Scan.IsWord listenAddrStr) (size : Int32) :
    ∃ conf, (writeConf procs listenAddrStr).map (readConf size) = some conf ∧
      conf.sizeSp.toInt = procs.length ∧
      (conf.servers.map fun entry => (entry.1.text, entry.2.text)) =
        (procs.map fun proc => (some proc.host, some proc.addr)) ∧
      conf.listenAddrStr.text = some listenAddrStr := by
  have hprocs := h.each
  have hfirst := @Scan.scanNumber_decimal procs.length 10 rfl
    (confLines (procs.map ServerProc.host) (procs.map ServerProc.addr) ++ (listenAddrStr ++ [10]))
  have hlast : Scan.skipSpaces (listenAddrStr ++ [10]) = listenAddrStr ++ [10] := hlisten.skipSpaces_append _
  have hlines := readEntries_confLines hlast procs hprocs size
  have hstart : Scan.skipSpaces (10 :: (confLines (procs.map ServerProc.host) (procs.map ServerProc.addr) ++
      (listenAddrStr ++ [10]))) = confLines (procs.map ServerProc.host) (procs.map ServerProc.addr) ++
        (listenAddrStr ++ [10]) := by
    rw [Scan.skipSpaces_cons rfl, skipSpaces_confLines hprocs hlast]
  rw [writeConf_eq h, Option.map_some]
  refine ⟨_, rfl, ?_⟩
  simp only [readConf, scanf, Scan.scanfFrom, hfirst, hstart]
  rw [sizeSpAfter_length (Nat.lt_succ_of_le h.length), Int.toNat_natCast]
  generalize readEntries procs.length size (confLines (procs.map ServerProc.host) (procs.map ServerProc.addr) ++
    (listenAddrStr ++ [10])) = r at hlines ⊢
  obtain ⟨servers, size', fd⟩ := r
  obtain ⟨hservers, rfl⟩ := hlines
  exact ⟨rfl, hservers, readListenAddr_text hlisten size'⟩

end Read

/-! ## The servers of the clients -/

section Choose

variable {myNodeName : CStr} {names : List CStr}

/-- The servers that a client chooses from, by rank. -/
def choices (myNodeName : CStr) (names : List CStr) : List Nat :=
  if names.any (myNodeName = ·) then names.findIdxs (myNodeName = ·) else List.range names.length

theorem any_eq_iff_mem : names.any (myNodeName = ·) = true ↔ myNodeName ∈ names := by
  simp

theorem findMatch_eq (names : List CStr) : ∀ i k,
    findMatch myNodeName i k names = (names.findIdxs (myNodeName = ·) i)[k]? := by
  induction names with
  | nil => exact fun _ _ => rfl
  | cons name names ih =>
      intro i k
      by_cases hname : myNodeName = name
      · cases k with
        | zero => simp [findMatch, hname]
        | succ k => simp [findMatch, hname, ← hname ▸ ih (i + 1) k]
      · simp [findMatch, hname, ih]

theorem nodup_choices : (choices myNodeName names).Nodup := by
  rw [choices]
  split
  · exact List.nodup_findIdxs
  · exact List.nodup_range

theorem mem_choices {i : Nat} : i ∈ choices myNodeName names ↔
    ∃ h : i < names.length, myNodeName ∈ names → names[i] = myNodeName := by
  rw [choices]
  split
  · next hmem => simp [any_eq_iff_mem.1 hmem, eq_comm]
  · next hmem => simp [any_eq_iff_mem.not.1 hmem]

theorem choices_ne_nil (hnames : names ≠ []) : choices myNodeName names ≠ [] := by
  rw [choices]
  split
  · next hmem => simpa [List.findIdxs_eq_nil_iff] using any_eq_iff_mem.1 hmem
  · simpa using hnames

/-- A client takes the one of its choices that its rank comes to. -/
theorem chooseServer_eq (hnames : names ≠ []) (rank : Nat) :
    (choices myNodeName names)[rank % (choices myNodeName names).length]? =
      some (chooseServer myNodeName rank names) := by
  have hpos : 0 < (choices myNodeName names).length := List.length_pos_iff.2 (choices_ne_nil hnames)
  have hlt := Nat.mod_lt rank hpos
  rw [chooseServer]
  by_cases hmem : myNodeName ∈ names
  · have hcount : names.countP (myNodeName = ·) ≠ 0 := by
      rw [ne_eq, List.countP_eq_zero]
      exact fun h => h myNodeName hmem (decide_eq_true rfl)
    simp only [choices, if_pos (any_eq_iff_mem.2 hmem), List.length_findIdxs] at hlt ⊢
    rw [if_pos hcount, findMatch_eq, List.getElem?_eq_getElem (by rwa [List.length_findIdxs]), Option.getD_some]
  · have hcount : names.countP (myNodeName = ·) = 0 :=
      List.countP_eq_zero.2 fun name hname heq => hmem (of_decide_eq_true heq ▸ hname)
    simp only [choices, if_neg (any_eq_iff_mem.not.2 hmem), List.length_range, hcount, ne_eq, not_true_eq_false,
      if_false] at hlt ⊢
    rw [List.getElem?_eq_getElem (by rwa [List.length_range]), List.getElem_range]

theorem chooseServer_mem (hnames : names ≠ []) (rank : Nat) :
    chooseServer myNodeName rank names ∈ choices myNodeName names :=
  List.mem_of_getElem? (chooseServer_eq hnames rank)

/-- Among as many consecutive numbers as `n`, one leaves a given rest. -/
theorem existsUnique_mod {n k : Nat} (hk : k < n) (a : Nat) : ∃! r, (a ≤ r ∧ r < a + n) ∧ r % n = k := by
  have hpos : 0 < n := Nat.zero_lt_of_lt hk
  have ha := Nat.mod_lt a hpos
  refine ⟨a + (k + (n - a % n)) % n, ⟨⟨Nat.le_add_right _ _, ?_⟩, ?_⟩, ?_⟩
  · exact Nat.add_lt_add_left (Nat.mod_lt _ hpos) a
  · have hsum : a % n + (k + (n - a % n)) = k + n := by omega
    rw [Nat.add_mod_mod, ← Nat.mod_add_mod, hsum, Nat.add_mod_right, Nat.mod_eq_of_lt hk]
  · rintro r ⟨⟨hle, hlt⟩, hr⟩
    obtain ⟨d, rfl⟩ := Nat.exists_eq_add_of_le hle
    have hmod : (a + d) % n = (a + (k + (n - a % n)) % n) % n := by
      have hsum : a % n + (k + (n - a % n)) = k + n := by omega
      rw [hr, Nat.add_mod_mod, ← Nat.mod_add_mod, hsum, Nat.add_mod_right, Nat.mod_eq_of_lt hk]
    have hd : d % n = (k + (n - a % n)) % n % n := Nat.ModEq.add_left_cancel' a hmod
    rw [Nat.mod_mod, Nat.mod_eq_of_lt (by omega)] at hd
    rw [hd]

/-- Each choice is taken by one of as many clients with consecutive ranks as there are choices. -/
theorem existsUnique_chooseServer (hnames : names ≠ []) {i : Nat} (hi : i ∈ choices myNodeName names) (a : Nat) :
    ∃! rank, (a ≤ rank ∧ rank < a + (choices myNodeName names).length) ∧ chooseServer myNodeName rank names = i := by
  obtain ⟨k, hk, rfl⟩ := List.getElem_of_mem hi
  have hiff : ∀ rank, chooseServer myNodeName rank names = (choices myNodeName names)[k] ↔
      rank % (choices myNodeName names).length = k := by
    intro rank
    have hlt := Nat.mod_lt rank (Nat.zero_lt_of_lt hk)
    have hchosen := @chooseServer_eq myNodeName names hnames rank
    rw [List.getElem?_eq_getElem hlt, Option.some.injEq] at hchosen
    rw [← hchosen, nodup_choices.getElem_inj_iff]
  simp only [hiff]
  exact existsUnique_mod hk a

end Choose

/-- The address that a client of the rank looks up on a node of that name. -/
def clientAddress (myNodeName : CStr) (rank : Nat) (conf : ClientConf) : Option CStr :=
  let names := conf.servers.map fun entry => entry.1.text.getD []
  (conf.servers[chooseServer myNodeName rank names]?).bind fun entry => entry.2.text

/-- From the file that the servers write, every client gets the address of a server, on its own node if there is
one there; and of as many clients of a node with consecutive ranks as there are such servers, each server gets
one. -/
theorem clientAddress_writeConf {procs : List ServerProc} (h : GroupOk procs) (hne : procs ≠ [])
    {listenAddrStr : CStr} (hlisten : Scan.IsWord listenAddrStr) (size : Int32) (myNodeName : CStr) :
    let own := choices myNodeName (procs.map ServerProc.host)
    let server := fun rank => chooseServer myNodeName rank (procs.map ServerProc.host)
    (∀ rank, ∃ proc, procs[server rank]? = some proc ∧
      ((writeConf procs listenAddrStr).bind fun text => clientAddress myNodeName rank (readConf size text)) =
        some proc.addr ∧
        (myNodeName ∈ procs.map ServerProc.host → proc.host = myNodeName)) ∧
      ∀ i ∈ own, ∀ a, ∃! rank, (a ≤ rank ∧ rank < a + own.length) ∧ server rank = i := by
  have hnames : procs.map ServerProc.host ≠ [] := by simpa using hne
  refine ⟨fun rank => ?_, fun i hi a => existsUnique_chooseServer hnames hi a⟩
  obtain ⟨conf, hconf, -, hservers, -⟩ := readConf_writeConf h hlisten size
  obtain ⟨text, htext, hread⟩ := Option.map_eq_some_iff.1 hconf
  obtain ⟨hlt, hown⟩ := mem_choices.1 (@chooseServer_mem myNodeName _ hnames rank)
  rw [htext, Option.bind_some, hread]
  have hread : conf.servers.map (fun entry => entry.1.text.getD []) = procs.map ServerProc.host := by
    have h := congrArg (List.map fun texts => texts.1.getD []) hservers
    simpa [List.map_map, Function.comp_def] using h
  rw [List.length_map] at hlt
  refine ⟨_, List.getElem?_eq_getElem hlt, ?_, fun hmem => ?_⟩
  · rw [clientAddress, hread]
    have hentry := congrArg (fun l => l[chooseServer myNodeName rank (procs.map ServerProc.host)]?) hservers
    simp only [List.getElem?_map, List.getElem?_eq_getElem hlt, Option.map_some] at hentry
    obtain ⟨entry, hentry, htexts⟩ := Option.map_eq_some_iff.1 hentry
    rw [hentry, Option.bind_some]
    exact congrArg Prod.snd htexts
  · have hhost := hown hmem
    rwa [List.getElem_map] at hhost

/-! ### Two servers on one node and one on another -/

def threeProcs : List ServerProc :=
  [⟨[97], [49, 58, 49]⟩, ⟨[98], [50, 58, 49]⟩, ⟨[97], [49, 58, 50]⟩]

theorem ok_threeProcs : ∀ proc ∈ threeProcs, proc.Ok := by
  intro proc hproc
  simp only [threeProcs, List.mem_cons, List.not_mem_nil, or_false] at hproc
  rcases hproc with rfl | rfl | rfl <;>
    exact ⟨⟨by simp, by simp [Scan.isSpace]⟩, by simp, by decide, ⟨by simp, by simp [Scan.isSpace]⟩, by simp⟩

theorem groupOk_threeProcs : GroupOk threeProcs :=
  ⟨ok_threeProcs, by decide, by decide, by decide⟩

theorem isWord_tcp : Scan.IsWord [116, 99, 112] :=
  ⟨by simp, by simp [Scan.isSpace]⟩

theorem readConf_writeConf_threeProcs : ∃ conf,
    (writeConf threeProcs [116, 99, 112]).map (readConf 0) = some conf ∧
      (conf.servers.map fun entry => (entry.1.text, entry.2.text)) =
        [(some [97], some [49, 58, 49]), (some [98], some [50, 58, 49]), (some [97], some [49, 58, 50])] := by
  obtain ⟨conf, hconf, -, hservers, -⟩ := readConf_writeConf groupOk_threeProcs isWord_tcp 0
  exact ⟨conf, hconf, hservers⟩

theorem clientAddress_writeConf_threeProcs : ∃ proc ∈ threeProcs,
    ((writeConf threeProcs [116, 99, 112]).bind fun text => clientAddress [97] 5 (readConf 0 text)) =
        some proc.addr ∧
      proc.host = [97] := by
  obtain ⟨proc, hproc, haddr, hhost⟩ :=
    (clientAddress_writeConf groupOk_threeProcs (by simp [threeProcs]) isWord_tcp 0 [97]).1 5
  exact ⟨proc, List.mem_of_getElem? hproc, haddr, hhost (by simp [threeProcs])⟩

end DataSpaces
