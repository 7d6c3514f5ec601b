import ZcashSdk.Lib.Bytes
import ZcashSdk.Shielded.Types

set_option autoImplicit false

/-!
# The transport to a Ledger device

A command is written as reports of 64 bytes, the first of which starts with the length of
all the data, and the answer is read back from such reports. What a device may send is
up to the device.
-/
namespace ZcashSdk.Ledger
open Bytes
open Shielded (Bytes)

/-- What ends an exchange early: an error that is returned, or a panic. -/
inductive Fault where
  /-- No report comes from the device. -/
  | hid
  | protocol (message : String)
  | panic (message : String)
  deriving DecidableEq

structure APDUCommand where
  cla : UInt8
  ins : UInt8
  p1 : UInt8
  p2 : UInt8
  data : Bytes

structure APDUAnswer where
  data : Bytes
  retcode : ℕ
  deriving DecidableEq

def APDUCommand.toBytes (c : APDUCommand) : Except Fault Bytes :=
  .ok ([c.cla, c.ins, c.p1, c.p2, UInt8.ofNat c.data.length] ++ c.data)

def APDUAnswer.fromBytes (data : Bytes) : Except Fault APDUAnswer :=
  if data.length < 2 then .error (.panic "attempt to subtract with overflow")
  else .ok ⟨data.take (data.length - 2), ofBigEndian (data.drop (data.length - 2))⟩

/-! ### Writing -/

def header : Bytes := [1, 1, 5]

/-- One report for each chunk. The buffer is reused: what a short chunk does not fill still
    holds bytes of the chunk before. -/
def writeChunks (payload : Bytes) (idx : ℕ) : List Bytes → List Bytes
  | [] => []
  | chunk :: rest =>
    let payload := chunk ++ payload.drop chunk.length
    (0 :: header ++ bigEndian 2 idx ++ payload) :: writeChunks payload (idx + 1) rest

def write (data : Bytes) : List Bytes :=
  writeChunks (List.replicate 59 0) 0 (chunks 59 (bigEndian 2 data.length ++ data))

/-! ### Reading -/

def headerSize (seqno : ℕ) : ℕ := if seqno = 0 then 7 else 5

def readLoop (seqno dataLen : ℕ) (data : Bytes) : List Bytes → Except Fault Bytes
  | [] => .error .hid
  | buffer :: reports =>
    if buffer.length < 5 ∨ (seqno = 0 ∧ buffer.length < 7) then .error (.protocol "No header")
    else if buffer.take 3 ≠ header then .error (.protocol "Invalid header")
    else if ofBigEndian ((buffer.drop 3).take 2) ≠ seqno then .error (.protocol "Invalid seqno")
    else
      let dataLen := if seqno = 0 then ofBigEndian ((buffer.drop 5).take 2) else dataLen
      let data := data ++ buffer.drop (headerSize seqno)
      if seqno = 2 ^ 16 - 1 then .error (.panic "attempt to add with overflow")
      else if dataLen ≤ data.length then .ok (data.take dataLen)
      else readLoop (seqno + 1) dataLen data reports

def read (reports : List Bytes) : Except Fault Bytes := readLoop 0 0 [] reports

/-- What the worker does with a command, given the reports that the device answers with. A
    write returns nothing. -/
def run (c : APDUCommand) (reports : List Bytes) : Except Fault APDUAnswer := do
  let _ ← c.toBytes
  let rep ← read reports
  APDUAnswer.fromBytes rep

/-! ### A report of the device -/

/-- The report continues an answer as its part number `seqno`. -/
def Valid (seqno : ℕ) (report : Bytes) : Prop :=
  headerSize seqno ≤ report.length ∧ report.take 3 = header ∧
    ofBigEndian ((report.drop 3).take 2) = seqno

instance (seqno : ℕ) (report : Bytes) : Decidable (Valid seqno report) :=
  inferInstanceAs (Decidable (_ ∧ _))

/-- The data of the parts from `seqno` on. -/
def received (seqno : ℕ) : List Bytes → Bytes
  | [] => []
  | report :: reports => report.drop (headerSize seqno) ++ received (seqno + 1) reports

/-- The reports are the parts from `seqno` on, in order. -/
def Parts (seqno : ℕ) : List Bytes → Prop
  | [] => True
  | report :: reports => Valid seqno report ∧ Parts (seqno + 1) reports

def Opens (seqno : ℕ) (reports : List Bytes) (p : List Bytes → Prop) : Prop :=
  ∃ parts, parts <+: reports ∧ Parts seqno parts ∧ p parts

theorem opens_nil {seqno : ℕ} {p : List Bytes → Prop} : Opens seqno [] p ↔ p [] := by
  simp [Opens, Parts]

theorem opens_cons {seqno : ℕ} {report : Bytes} {reports : List Bytes} {p : List Bytes → Prop} :
    Opens seqno (report :: reports) p ↔
      p [] ∨ (Valid seqno report ∧ Opens (seqno + 1) reports fun ps => p (report :: ps)) := by
  constructor
  · rintro ⟨parts, hpre, hparts, hp⟩
    rcases List.prefix_cons_iff.1 hpre with rfl | ⟨ps, rfl, hps⟩
    · exact Or.inl hp
    · exact Or.inr ⟨hparts.1, ps, hps, hparts.2, hp⟩
  · rintro (hp | ⟨hv, ps, hps, hparts, hp⟩)
    · exact ⟨[], List.nil_prefix, trivial, hp⟩
    · exact ⟨report :: ps, List.prefix_cons_iff.2 (Or.inr ⟨ps, rfl, hps⟩), ⟨hv, hparts⟩, hp⟩

def declared (reports : List Bytes) : ℕ := ofBigEndian (((reports.headD []).drop 5).take 2)

/-- The device sends all that it declared, in less than `2 ^ 16` parts. -/
def Answered (reports : List Bytes) : Prop :=
  Opens 0 reports fun parts =>
    parts ≠ [] ∧ parts.length < 2 ^ 16 ∧ declared reports ≤ (received 0 parts).length

/-- The device sends `2 ^ 16` parts, and the last one before it has sent what it declared. -/
def Overrun (reports : List Bytes) : Prop :=
  Opens 0 reports fun parts =>
    parts.length = 2 ^ 16 ∧ (received 0 parts.dropLast).length < declared reports

theorem readLoop_cons {seqno dataLen : ℕ} {data report : Bytes} {reports : List Bytes}
    (hseq : seqno ≠ 0) (hv : Valid seqno report) :
    readLoop seqno dataLen data (report :: reports) =
      if seqno = 2 ^ 16 - 1 then .error (.panic "attempt to add with overflow")
      else if dataLen ≤ (data ++ report.drop 5).length then
        .ok ((data ++ report.drop 5).take dataLen)
      else readLoop (seqno + 1) dataLen (data ++ report.drop 5) reports := by
  obtain ⟨hlen, hhead, hno⟩ := hv
  rw [headerSize, if_neg hseq] at hlen
  rw [readLoop, if_neg (by omega), if_neg (by simp [hhead]), if_neg (by simp [hno])]
  simp only [headerSize, if_neg hseq]

theorem readLoop_invalid {seqno : ℕ} (dataLen : ℕ) (data : Bytes) {report : Bytes}
    (reports : List Bytes) (hv : ¬ Valid seqno report) :
    ∃ m, readLoop seqno dataLen data (report :: reports) = .error (.protocol m) := by
  unfold readLoop
  split_ifs with h1 h2 h3
  · exact ⟨_, rfl⟩
  · exact ⟨_, rfl⟩
  · exact ⟨_, rfl⟩
  all_goals
    refine absurd ⟨?_, not_not.1 h2, not_not.1 h3⟩ hv
    unfold headerSize
    split <;> omega

/-! ### How reading ends -/

section Loop
variable {seqno dataLen : ℕ} {data : Bytes} {reports : List Bytes}

theorem length_received_cons (hseq : seqno ≠ 0) (report : Bytes) (ps : List Bytes) :
    (received seqno (report :: ps)).length =
      (report.drop 5).length + (received (seqno + 1) ps).length := by
  rw [received, headerSize, if_neg hseq, List.length_append]

/-- Reading goes on to the first part that completes the declared length. -/
theorem readLoop_ok (hseq : seqno ≠ 0) (hmax : seqno < 2 ^ 16) (hdata : data.length < dataLen) :
    (∃ d, readLoop seqno dataLen data reports = .ok d) ↔
      Opens seqno reports fun parts => seqno + parts.length < 2 ^ 16 ∧
        dataLen ≤ data.length + (received seqno parts).length := by
  induction reports generalizing seqno data with
  | nil =>
    rw [opens_nil]
    refine iff_of_false ?_ ?_
    · rintro ⟨d, h⟩
      cases h
    · simp only [received, List.length_nil]
      omega
  | cons report reports ih =>
    rw [opens_cons, or_iff_right (by simp only [received, List.length_nil]; omega)]
    by_cases hv : Valid seqno report
    · rw [readLoop_cons hseq hv, and_iff_right hv]
      simp only [length_received_cons hseq, List.length_cons]
      split_ifs with hlast hdone
      · refine iff_of_false ?_ ?_
        · rintro ⟨d, h⟩
          cases h
        · rintro ⟨ps, -, -, hlt, -⟩
          omega
      · rw [List.length_append] at hdone
        refine iff_of_true ⟨_, rfl⟩ ⟨[], List.nil_prefix, trivial, ?_, ?_⟩
        · simp only [List.length_nil]
          omega
        · omega
      · rw [ih (by omega) (by omega) (by omega), List.length_append]
        simp only [Nat.add_assoc, Nat.add_comm 1]
    · obtain ⟨m, hm⟩ := readLoop_invalid dataLen data reports hv
      rw [hm]
      refine iff_of_false ?_ fun h => hv h.1
      rintro ⟨d, h⟩
      cases h

/-- The counter of the parts overflows only if all of them leave the answer incomplete. -/
theorem readLoop_panic (hseq : seqno ≠ 0) (hmax : seqno < 2 ^ 16) (hdata : data.length < dataLen) :
    (∃ m, readLoop seqno dataLen data reports = .error (.panic m)) ↔
      Opens seqno reports fun parts => seqno + parts.length = 2 ^ 16 ∧
        data.length + (received seqno parts.dropLast).length < dataLen := by
  induction reports generalizing seqno data with
  | nil =>
    rw [opens_nil]
    refine iff_of_false ?_ ?_
    · rintro ⟨m, h⟩
      cases h
    · simp only [List.length_nil]
      omega
  | cons report reports ih =>
    rw [opens_cons, or_iff_right (by simp only [List.length_nil]; omega)]
    by_cases hv : Valid seqno report
    · rw [readLoop_cons hseq hv, and_iff_right hv]
      split_ifs with hlast hdone
      · refine iff_of_true ⟨_, rfl⟩ ⟨[], List.nil_prefix, trivial, ?_, ?_⟩
        · simp only [List.length_singleton]
          omega
        · simpa [received] using hdata
      · refine iff_of_false ?_ ?_
        · rintro ⟨m, h⟩
          cases h
        · -- there is another part after this one, which completed the answer
          rintro ⟨ps, -, -, hlen, hlt⟩
          have hps : ps ≠ [] := by
            rintro rfl
            simp only [List.length_singleton] at hlen
            omega
          rw [List.dropLast_cons_of_ne_nil hps, length_received_cons hseq] at hlt
          rw [List.length_append] at hdone
          omega
      · rw [ih (by omega) (by omega) (by omega), List.length_append]
        refine exists_congr fun ps => and_congr_right fun _ => and_congr_right fun _ => ?_
        beta_reduce
        rw [List.length_cons, Nat.add_assoc seqno, Nat.add_comm 1]
        refine and_congr_right fun hlen => ?_
        have hps : ps ≠ [] := by
          rintro rfl
          simp only [List.length_nil] at hlen
          omega
        rw [List.dropLast_cons_of_ne_nil hps, length_received_cons hseq, Nat.add_assoc]
    · obtain ⟨m, hm⟩ := readLoop_invalid dataLen data reports hv
      rw [hm]
      refine iff_of_false ?_ fun h => hv h.1
      rintro ⟨m', h⟩
      cases h

theorem readLoop_length {d : Bytes} (h : readLoop seqno dataLen data reports = .ok d)
    (hseq : seqno ≠ 0) : d.length = dataLen := by
  induction reports generalizing seqno data with
  | nil => cases h
  | cons report reports ih =>
    by_cases hv : Valid seqno report
    · rw [readLoop_cons hseq hv] at h
      split_ifs at h with hlast hdone
      · rw [Except.ok.injEq] at h
        rw [← h, List.length_take, min_eq_left hdone]
      · exact ih h (by omega)
    · obtain ⟨m, hm⟩ := readLoop_invalid dataLen data reports hv
      rw [hm] at h
      cases h

end Loop

theorem readLoop_first {report : Bytes} {reports : List Bytes} (hv : Valid 0 report) :
    read (report :: reports) =
      if declared (report :: reports) ≤ (report.drop 7).length then
        .ok ((report.drop 7).take (declared (report :: reports)))
      else readLoop 1 (declared (report :: reports)) (report.drop 7) reports := by
  obtain ⟨hlen, hhead, hno⟩ := hv
  rw [headerSize, if_pos rfl] at hlen
  rw [read, readLoop, if_neg (by omega), if_neg (by simp [hhead]), if_neg (by simp [hno])]
  rfl

theorem read_ok {reports : List Bytes} : (∃ d, read reports = .ok d) ↔ Answered reports := by
  cases reports with
  | nil =>
    rw [Answered, opens_nil]
    refine iff_of_false ?_ fun h => h.1 rfl
    rintro ⟨d, h⟩
    cases h
  | cons report reports =>
    rw [Answered, opens_cons, or_iff_right fun h => h.1 rfl]
    by_cases hv : Valid 0 report
    · have hrec : ∀ ps, (received 0 (report :: ps)).length =
          (report.drop 7).length + (received 1 ps).length := by
        intro ps
        rw [received, headerSize, if_pos rfl, List.length_append]
      rw [readLoop_first hv, and_iff_right hv]
      simp only [hrec, List.length_cons]
      split_ifs with hdone
      · refine iff_of_true ⟨_, rfl⟩ ⟨[], List.nil_prefix, trivial, by simp, by simp, ?_⟩
        exact hdone.trans (Nat.le_add_right _ _)
      · rw [readLoop_ok one_ne_zero (by decide) (by omega)]
        refine exists_congr fun ps => and_congr_right fun _ => and_congr_right fun _ => ?_
        beta_reduce
        rw [Nat.add_comm 1, and_iff_right (List.cons_ne_nil report ps)]
    · obtain ⟨m, hm⟩ := readLoop_invalid 0 [] reports hv
      rw [read, hm]
      refine iff_of_false ?_ fun h => hv h.1
      rintro ⟨d, h⟩
      cases h

theorem read_panic {reports : List Bytes} :
    (∃ m, read reports = .error (.panic m)) ↔ Overrun reports := by
  cases reports with
  | nil =>
    rw [Overrun, opens_nil]
    refine iff_of_false ?_ fun h => by simp at h
    rintro ⟨m, h⟩
    cases h
  | cons report reports =>
    rw [Overrun, opens_cons, or_iff_right fun h => by simp at h]
    by_cases hv : Valid 0 report
    · have hrec : ∀ ps, (received 0 (report :: ps)).length =
          (report.drop 7).length + (received 1 ps).length := by
        intro ps
        rw [received, headerSize, if_pos rfl, List.length_append]
      have hne : ∀ ps : List Bytes, (report :: ps).length = 2 ^ 16 → ps ≠ [] := by
        rintro ps hlen rfl
        simp at hlen
      rw [readLoop_first hv, and_iff_right hv]
      split_ifs with hdone
      · refine iff_of_false ?_ ?_
        · rintro ⟨m, h⟩
          cases h
        · rintro ⟨ps, -, -, hlen, hlt⟩
          rw [List.dropLast_cons_of_ne_nil (hne ps hlen), hrec] at hlt
          omega
      · rw [readLoop_panic one_ne_zero (by decide) (by omega)]
        refine exists_congr fun ps => and_congr_right fun _ => and_congr_right fun _ => ?_
        beta_reduce
        rw [Nat.add_comm 1, ← List.length_cons (a := report)]
        refine and_congr_right fun hlen => ?_
        rw [List.dropLast_cons_of_ne_nil (hne ps hlen), hrec]
    · obtain ⟨m, hm⟩ := readLoop_invalid 0 [] reports hv
      rw [read, hm]
      refine iff_of_false ?_ fun h => hv h.1
      rintro ⟨m', h⟩
      cases h

theorem read_length {reports : List Bytes} {d : Bytes} (h : read reports = .ok d) :
    d.length = declared reports := by
  cases reports with
  | nil => cases h
  | cons report reports =>
    by_cases hv : Valid 0 report
    · rw [readLoop_first hv] at h
      split_ifs at h with hdone
      · rw [Except.ok.injEq] at h
        rw [← h, List.length_take, min_eq_left hdone]
      · exact readLoop_length h one_ne_zero
    · obtain ⟨m, hm⟩ := readLoop_invalid 0 [] reports hv
      rw [read, hm] at h
      cases h

/-! ### What is written is read back -/

section Written
variable {seqno : ℕ} {payload : Bytes}

theorem valid_written (hseq : seqno < 2 ^ 16) (hlen : payload.length = 59) :
    Valid seqno (header ++ bigEndian 2 seqno ++ payload) := by
  refine ⟨?_, ?_, ?_⟩
  · simp only [headerSize, header, List.length_append, bigEndian_length, hlen]
    split <;> decide
  · rw [List.append_assoc]
    exact List.take_left' rfl
  · rw [List.append_assoc, List.drop_left' (show header.length = 3 from rfl),
      List.take_left' (bigEndian_length 2 seqno)]
    exact ofBigEndian_bigEndian_of_lt hseq

theorem drop_written (payload : Bytes) : (header ++ bigEndian 2 seqno ++ payload).drop 5 = payload :=
  List.drop_left' (by simp [header])

theorem readLoop_written (data : Bytes) {rest : Bytes} (hseq : seqno ≠ 0) (hrest : rest ≠ [])
    (hpay : payload.length = 59) (hbound : rest.length ≤ 59 * (2 ^ 16 - 1 - seqno)) :
    readLoop seqno (data.length + rest.length) data
      ((writeChunks payload seqno (chunks 59 rest)).map List.tail) = .ok (data ++ rest) := by
  induction hn : rest.length using Nat.strong_induction_on generalizing seqno payload data rest with
  | h n ih =>
    subst hn
    have hpos : 0 < rest.length := List.length_pos_iff.2 hrest
    have hlt : seqno < 2 ^ 16 - 1 := by
      by_contra hge
      have hzero : 2 ^ 16 - 1 - seqno = 0 := by omega
      rw [hzero] at hbound
      omega
    rw [chunks_of_ne_nil hrest (by decide), writeChunks, List.map_cons]
    have hpay' : (rest.take 59 ++ payload.drop (rest.take 59).length).length = 59 := by
      simp only [List.length_append, List.length_drop, List.length_take, hpay]
      omega
    have hv := valid_written (show seqno < 2 ^ 16 by omega) hpay'
    change readLoop seqno _ data ((header ++ bigEndian 2 seqno ++ _) :: _) = _
    rw [readLoop_cons hseq hv, drop_written, if_neg (by omega)]
    by_cases hle : rest.length ≤ 59
    · rw [List.take_of_length_le hle, if_pos (by simp), ← List.append_assoc,
        List.take_left' (by simp)]
    · -- a full chunk leaves nothing of the one before
      have hfull : rest.take 59 ++ payload.drop (rest.take 59).length = rest.take 59 := by
        rw [List.drop_of_length_le (by simp [hpay]; omega), List.append_nil]
      have htake : (rest.take 59).length = 59 := by
        rw [List.length_take]
        omega
      have hdrop : (rest.drop 59).length = rest.length - 59 := List.length_drop
      rw [hfull, if_neg (by simp only [List.length_append, htake]; omega)]
      have hlen : data.length + rest.length =
          (data ++ rest.take 59).length + (rest.drop 59).length := by
        rw [List.length_append, htake, hdrop]
        omega
      rw [hlen, ih _ (by omega) _ (by omega) ?_ htake (by omega) rfl]
      · rw [List.append_assoc, List.take_append_drop]
      · rw [← List.length_pos_iff, hdrop]
        omega

theorem read_write {data : Bytes} (hlen : data.length < 2 ^ 16) :
    read ((write data).map List.tail) = .ok data := by
  have hne : bigEndian 2 data.length ++ data ≠ [] := by
    rw [← List.length_pos_iff, List.length_append, bigEndian_length]
    omega
  rw [write, chunks_of_ne_nil hne (by decide), writeChunks, List.map_cons]
  have htake : (bigEndian 2 data.length ++ data).take 59 = bigEndian 2 data.length ++ data.take 57 := by
    rw [List.take_append, bigEndian_length, List.take_of_length_le (by simp)]
  have hdrop : (bigEndian 2 data.length ++ data).drop 59 = data.drop 57 := by
    rw [List.drop_append, bigEndian_length, List.drop_of_length_le (by simp), List.nil_append]
  rw [htake, hdrop]
  generalize hstale : (List.replicate 59 (0 : UInt8)).drop
    (bigEndian 2 data.length ++ data.take 57).length = stale
  have hpay : (bigEndian 2 data.length ++ data.take 57 ++ stale).length = 59 := by
    rw [← hstale]
    simp only [List.length_append, bigEndian_length, List.length_take, List.length_drop,
      List.length_replicate]
    omega
  have hv := valid_written (show 0 < 2 ^ 16 by decide) hpay
  change read ((header ++ bigEndian 2 0 ++ _) :: _) = _
  have hdeclared : ∀ rs, declared ((header ++ bigEndian 2 0 ++
      (bigEndian 2 data.length ++ data.take 57 ++ stale)) :: rs) = data.length := by
    intro rs
    rw [declared, List.headD_cons, drop_written, List.append_assoc,
      List.take_left' (bigEndian_length 2 _)]
    exact ofBigEndian_bigEndian_of_lt hlen
  have hrest : (header ++ bigEndian 2 0 ++
      (bigEndian 2 data.length ++ data.take 57 ++ stale)).drop 7 = data.take 57 ++ stale := by
    rw [List.append_assoc (bigEndian 2 data.length), ← List.append_assoc]
    exact List.drop_left' (by simp [header])
  rw [readLoop_first hv, hdeclared, hrest]
  by_cases hle : data.length ≤ 57
  · rw [List.take_of_length_le hle, if_pos (by simp), List.take_left' rfl]
  · have hstale : stale = [] := by
      rw [← hstale, List.drop_of_length_le]
      simp only [List.length_replicate, List.length_append, bigEndian_length, List.length_take]
      omega
    have htake : (data.take 57).length = 57 := by
      rw [List.length_take]
      omega
    have hdrop : (data.drop 57).length = data.length - 57 := List.length_drop
    have hsum : (data.take 57).length + (data.drop 57).length = data.length := by omega
    have hloop := readLoop_written (data.take 57) one_ne_zero
      (List.length_pos_iff.1 (by omega : 0 < (data.drop 57).length)) hpay (by omega)
    rw [hsum, List.take_append_drop] at hloop
    rw [if_neg (by rw [List.length_append, hstale, List.length_nil]; omega)]
    rw [hstale] at hloop ⊢
    rw [List.append_nil (data.take 57)]
    exact hloop

end Written

/-! ### Exchanges -/

/-- The length byte of the encoded command is the length of its data, or there is no encoding. -/
def APDUCommand.EncodesLength (c : APDUCommand) : Prop :=
  ∀ b, c.toBytes = .ok b → (b[4]?).map UInt8.toNat = some c.data.length

theorem encodesLength_iff (c : APDUCommand) : c.EncodesLength ↔ c.data.length < 256 := by
  have hbyte : ([c.cla, c.ins, c.p1, c.p2, UInt8.ofNat c.data.length] ++ c.data)[4]?.map
      UInt8.toNat = some (c.data.length % 256) := by
    simp
  constructor
  · intro h
    have := (h _ rfl).symm.trans hbyte
    rw [Option.some.injEq] at this
    omega
  · intro hlt b hb
    rw [APDUCommand.toBytes, Except.ok.injEq] at hb
    rw [← hb, hbyte, Nat.mod_eq_of_lt hlt]

theorem fromBytes_panic {data : Bytes} :
    (∃ m, APDUAnswer.fromBytes data = .error (.panic m)) ↔ data.length < 2 := by
  unfold APDUAnswer.fromBytes
  split <;> simp_all

theorem run_panic {c : APDUCommand} {reports : List Bytes} :
    (∃ m, run c reports = .error (.panic m)) ↔
      Overrun reports ∨ (Answered reports ∧ declared reports < 2) := by
  rw [← read_panic, ← read_ok]
  have hrun : run c reports = (read reports).bind APDUAnswer.fromBytes := rfl
  rw [hrun]
  cases hread : read reports with
  | error f => simp [Except.bind]
  | ok d =>
    rw [← read_length hread, ← fromBytes_panic]
    simp [Except.bind]

/-- An exchange ends in an answer or an error, and what is sent tells the data's length. -/
structure Sound (c : APDUCommand) (reports : List Bytes) : Prop where
  ends : ∀ m, run c reports ≠ .error (.panic m)
  encodes : c.EncodesLength

/-- A command of 256 bytes is sent with a length of zero, and a device that declares an empty
    answer makes the worker panic. -/
theorem short_answer_panics :
    run ⟨0xE0, 1, 0, 0, []⟩ [header ++ bigEndian 2 0 ++ List.replicate 59 0] =
        .error (.panic "attempt to subtract with overflow") ∧
      APDUCommand.toBytes ⟨0xE0, 1, 0, 0, List.replicate 256 7⟩ =
        .ok ([0xE0, 1, 0, 0, 0] ++ List.replicate 256 7) := by
  decide +kernel

/-- What is written is read back; and an exchange is sound exactly when the data has at most
    255 bytes, a complete answer has room for its return code, and the counter of the parts
    does not overflow. -/
theorem transport_sound_iff (data : Bytes) (c : APDUCommand) (reports : List Bytes)
    (hlen : data.length < 65536) :
    read ((write data).map List.tail) = .ok data ∧
      (Sound c reports ↔ c.data.length < 256 ∧ (Answered reports → 2 ≤ declared reports) ∧
        ¬ Overrun reports) := by
  refine ⟨read_write hlen, ?_⟩
  have hends : (∀ m, run c reports ≠ .error (.panic m)) ↔
      ¬ (Overrun reports ∨ (Answered reports ∧ declared reports < 2)) := by
    rw [← run_panic (c := c), not_exists]
  constructor
  · rintro ⟨h, hc⟩
    obtain ⟨h1, h2⟩ := not_or.1 (hends.1 h)
    refine ⟨(encodesLength_iff c).1 hc, fun ha => ?_, h1⟩
    by_contra hlt
    exact h2 ⟨ha, by omega⟩
  · rintro ⟨hc, h2, h1⟩
    refine ⟨hends.2 ?_, (encodesLength_iff c).2 hc⟩
    rintro (h | ⟨ha, hlt⟩)
    · exact h1 h
    · have := h2 ha
      omega

/-- A command with two bytes of data that is answered with a bare return code. -/
theorem bare_retcode_sound :
    Sound ⟨0xE0, 1, 0, 0, [1, 2]⟩
      [header ++ bigEndian 2 0 ++ ([0, 2, 0x90, 0] ++ List.replicate 55 0)] := by
  refine (transport_sound_iff [1, 2] ⟨0xE0, 1, 0, 0, [1, 2]⟩ _ (by decide)).2.2 ⟨by decide, ?_, ?_⟩
  · intro _
    decide
  · rintro ⟨parts, hpre, -, hlen, -⟩
    have hle := hpre.length_le
    rw [hlen] at hle
    exact absurd hle (by decide)

end ZcashSdk.Ledger
