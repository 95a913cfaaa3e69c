import EmbeddedBuffers.Proofs.Codec.ElementBytes
import EmbeddedBuffers.Proofs.Svf.Commands
import Mathlib.Data.List.Basic

/-!
# What a command stream tells

A command stream names neither the number of its commands nor the number of the data of a scan.
The byte in front of a mask is also that of a scan of the data register, and the byte in front of
an expected output that of a scan of the instruction register. A piece of data with its length can
therefore stand where a scan without such a piece is followed by another scan, whose number of bits
is that length. This is the only way in which two lists of commands share a stream: elsewhere the
first byte of a command or of a piece of data tells what it is. Main statements:
`stream_eq_iff` and `convert_eq_iff`.
-/

namespace EmbeddedBuffers.Svf

open Elements (toBytes toBytes_inj length_toBytes)

/-- The bytes of some commands. -/
def stream (cs : List Command) : List UInt8 := cs.flatMap Command.encode

@[simp] theorem stream_cons (c : Command) (cs : List Command) :
    stream (c :: cs) = c.encode ++ stream cs := List.flatMap_cons

@[simp] theorem stream_append (cs ds : List Command) :
    stream (cs ++ ds) = stream cs ++ stream ds := List.flatMap_append

/-! ## The data of a scan -/

/-- The byte that stands in front of a kind of data. -/
def DataKind.code : DataKind → UInt8
  | .mask => 0x0E
  | .tdo => 0x0D
  | .tdi => 0x0C

/-- The scan that starts with the byte of a kind of data. -/
def DataKind.scan? : DataKind → Option ScanKind
  | .mask => some .sdr
  | .tdo => some .sir
  | .tdi => none

namespace ScanData

/-- The data that are written before those of a kind. -/
def before (d : ScanData) : DataKind → ScanData
  | .mask => {}
  | .tdo => { mask := d.mask }
  | .tdi => { mask := d.mask, tdo := d.tdo }

/-- The data that are written behind those of a kind. -/
def after (d : ScanData) : DataKind → ScanData
  | .mask => { tdo := d.tdo, tdi := d.tdi }
  | .tdo => { tdi := d.tdi }
  | .tdi => {}

/-- The length of every piece of data is one that its field holds. -/
def Short (d : ScanData) : Prop := ∀ k v, d.get? k = some v → v.length < 2 ^ 32

theorem encode_eq (d : ScanData) (k : DataKind) :
    d.encode = (d.before k).encode ++ dataBytes k.code (d.get? k) ++ (d.after k).encode := by
  cases k <;>
    simp [encode, before, after, get?, DataKind.code, dataBytes]

/-- The pieces of data come in the order mask, expected output and input. -/
theorem encode_pieces (d : ScanData) :
    d.encode = dataBytes DataKind.mask.code (d.get? .mask) ++ (d.after .mask).encode ∧
      (d.after .mask).encode =
        dataBytes DataKind.tdo.code (d.get? .tdo) ++ (d.after .tdo).encode ∧
      (d.after .tdo).encode =
        dataBytes DataKind.tdi.code (d.get? .tdi) ++ (d.after .tdi).encode :=
  ⟨d.encode_eq .mask, rfl, (List.append_nil _).symm⟩

/-- Data are those before a kind where no others are left. -/
theorem eq_before {d : ScanData} {k : DataKind} (hk : d.get? k = none) (hafter : d.after k = {}) :
    d = d.before k := by
  cases d
  cases k <;> simp_all [before, after, get?]

/-- What follows a kind of data does not start with the byte of that kind, unless the next command
does. -/
theorem exists_of_after {d : ScanData} {k : DataKind} {rest bytes : List UInt8}
    (h : (d.after k).encode ++ rest = k.code :: bytes) :
    d.after k = {} ∧ rest = k.code :: bytes := by
  rcases d with ⟨mask, tdo, tdi⟩
  cases k <;> cases tdo <;> cases tdi <;>
    simp_all [after, encode, dataBytes, DataKind.code]

end ScanData

/-- The data of a scan are short. -/
def Command.Short : Command → Prop
  | .scan _ _ d => d.Short
  | _ => True

/-- A command that starts with the byte of a kind of data is the scan that starts with it. -/
theorem exists_scan_of_code {cs : List Command} {k : DataKind} {bytes : List UInt8}
    (h : stream cs = k.code :: bytes) :
    ∃ kind bits d rest, k.scan? = some kind ∧ cs = .scan kind bits d :: rest ∧
      bytes = toBytes 4 bits ++ (d.encode ++ stream rest) := by
  cases cs with
  | nil => cases h
  | cons c rest =>
      rw [stream_cons] at h
      cases c with
      | scan kind bits d =>
          rw [Command.encode, List.cons_append, List.cons.injEq] at h
          have hkind : k.scan? = some kind := by
            have hcode := h.1
            cases k <;> cases kind <;> first | rfl | exact absurd hcode (by decide)
          exact ⟨kind, bits, d, rest, hkind, rfl, by rw [← h.2, List.append_assoc]⟩
      | state s => cases k <;> exact absurd (List.cons.inj h).1 (by decide)
      | endDr s => cases k <;> exact absurd (List.cons.inj h).1 (by decide)
      | endIr s => cases k <;> exact absurd (List.cons.inj h).1 (by decide)
      | frequency hertz => cases k <;> exact absurd (List.cons.inj h).1 (by decide)
      | runTest s cycles time => cases k <;> exact absurd (List.cons.inj h).1 (by decide)

/-! ## Two lists of commands with one stream -/

/-- Some data go on with a piece where others end and a scan follows whose number of bits is the
length of that piece, and what is left is the same. -/
def Cut (k : DataKind) (d : ScanData) (cs : List Command) (d' : ScanData) (ds : List Command) :
    Prop :=
  ∃ v kind e rest, d.get? k = some v ∧ k.scan? = some kind ∧ d' = d.before k ∧
    ds = .scan kind v.length e :: rest ∧
    v ++ ((d.after k).encode ++ stream cs) = e.encode ++ stream rest

/-- A scan has a piece of data where in the other list it ends before that piece, and the byte and
the length of the piece are read as the head of another scan. -/
def Misread (cs ds : List Command) : Prop :=
  ∃ front kind bits k d rest d' rest', cs = front ++ .scan kind bits d :: rest ∧
    ds = front ++ .scan kind bits d' :: rest' ∧ Cut k d rest d' rest'

/-- Lists that are misread have one stream. -/
theorem Misread.stream_eq {cs ds : List Command} (h : Misread cs ds) : stream cs = stream ds := by
  obtain ⟨front, kind, bits, k, d, rest, d', rest', rfl, rfl, hcut⟩ := h
  obtain ⟨v, kind', e, rest'', hv, hkind, rfl, rfl, heq⟩ := hcut
  have hcode : kind'.code = k.code := by
    cases k <;> cases hkind <;> rfl
  rw [stream_append, stream_append, stream_cons, stream_cons, stream_cons, Command.encode,
    Command.encode, Command.encode, d.encode_eq k, hv, dataBytes, hcode]
  simp only [List.cons_append, List.append_assoc, ← heq]

variable {d d' : ScanData} {cs ds : List Command}

/-- A piece of data is written where the other scan has none, so that scan ends there. -/
theorem cut_of_none {k : DataKind} {v : List UInt8} (hv : v.length < 2 ^ 32)
    (hds : ∀ c ∈ ds, c.Bounded) (hbefore : d.before k = d'.before k) (hd : d.get? k = some v)
    (hd' : d'.get? k = none)
    (h : dataBytes k.code (some v) ++ ((d.after k).encode ++ stream cs) =
      (d'.after k).encode ++ stream ds) : Cut k d cs d' ds := by
  rw [dataBytes, List.cons_append, List.cons_append] at h
  obtain ⟨hafter, hstream⟩ := ScanData.exists_of_after h.symm
  obtain ⟨kind, bits, e, rest, hkind, rfl, hbytes⟩ := exists_scan_of_code hstream
  rw [List.append_assoc] at hbytes
  obtain ⟨hlength, heq⟩ := List.append_inj hbytes (by rw [length_toBytes, length_toBytes])
  have hbits : bits < 2 ^ 32 := hds _ List.mem_cons_self
  have hsame : v.length = bits := toBytes_inj hv hbits hlength
  refine ⟨v, kind, e, rest, hd, hkind, ?_, by rw [hsame], heq⟩
  rw [hbefore]
  exact ScanData.eq_before hd' hafter

/-- Where two scans agree on the data before a kind, they agree on that kind, or one of them ends
before it. -/
theorem agree_or_cut (k : DataKind) (hd : d.Short) (hd' : d'.Short) (hcs : ∀ c ∈ cs, c.Bounded)
    (hds : ∀ c ∈ ds, c.Bounded) (hbefore : d.before k = d'.before k)
    (h : dataBytes k.code (d.get? k) ++ ((d.after k).encode ++ stream cs) =
      dataBytes k.code (d'.get? k) ++ ((d'.after k).encode ++ stream ds)) :
    (d.get? k = d'.get? k ∧ (d.after k).encode ++ stream cs = (d'.after k).encode ++ stream ds) ∨
      Cut k d cs d' ds ∨ Cut k d' ds d cs := by
  cases hv : d.get? k with
  | none =>
      cases hw : d'.get? k with
      | none =>
          rw [hv, hw] at h
          exact Or.inl ⟨rfl, h⟩
      | some w =>
          rw [hv, hw] at h
          exact Or.inr (Or.inr (cut_of_none (hd' k w hw) hcs hbefore.symm hw hv h.symm))
  | some v =>
      cases hw : d'.get? k with
      | none =>
          rw [hv, hw] at h
          exact Or.inr (Or.inl (cut_of_none (hd k v hv) hds hbefore hv hw h))
      | some w =>
          rw [hv, hw, dataBytes, dataBytes, List.cons_append, List.cons_append, List.cons_append,
            List.cons_append, List.append_assoc, List.append_assoc, List.cons.injEq] at h
          obtain ⟨hlength, hrest⟩ := List.append_inj h.2 (by rw [length_toBytes, length_toBytes])
          have hsame : v.length = w.length := toBytes_inj (hd k v hv) (hd' k w hw) hlength
          obtain ⟨hvw, hrest⟩ := List.append_inj hrest hsame
          exact Or.inl ⟨by rw [hvw], hrest⟩

/-- Scans whose bytes agree, with what follows them, are the same, or one of them ends before a
piece of data of the other. -/
theorem data_eq_or_cut (hd : d.Short) (hd' : d'.Short) (hcs : ∀ c ∈ cs, c.Bounded)
    (hds : ∀ c ∈ ds, c.Bounded) (h : d.encode ++ stream cs = d'.encode ++ stream ds) :
    (d = d' ∧ stream cs = stream ds) ∨ ∃ k, Cut k d cs d' ds ∨ Cut k d' ds d cs := by
  -- The pieces are compared in the order in which they are written.
  obtain ⟨hm, ho, hi⟩ := d.encode_pieces
  obtain ⟨hm', ho', hi'⟩ := d'.encode_pieces
  rw [hm, hm', List.append_assoc, List.append_assoc] at h
  rcases agree_or_cut .mask hd hd' hcs hds rfl h with ⟨hmask, h⟩ | hcut
  · rw [ho, ho', List.append_assoc, List.append_assoc] at h
    replace hmask : d.mask = d'.mask := hmask
    have hbefore : d.before .tdo = d'.before .tdo := by rw [ScanData.before, hmask]; rfl
    rcases agree_or_cut .tdo hd hd' hcs hds hbefore h with ⟨htdo, h⟩ | hcut
    · rw [hi, hi', List.append_assoc, List.append_assoc] at h
      replace htdo : d.tdo = d'.tdo := htdo
      have hbefore : d.before .tdi = d'.before .tdi := by rw [ScanData.before, hmask, htdo]; rfl
      rcases agree_or_cut .tdi hd hd' hcs hds hbefore h with ⟨htdi, h⟩ | hcut
      · replace htdi : d.tdi = d'.tdi := htdi
        refine Or.inl ⟨?_, h⟩
        cases d
        cases d'
        rw [ScanData.mk.injEq]
        exact ⟨hmask, htdo, htdi⟩
      · exact Or.inr ⟨.tdi, hcut⟩
    · exact Or.inr ⟨.tdo, hcut⟩
  · exact Or.inr ⟨.mask, hcut⟩

/-- The byte that a command starts with. -/
def Command.opcode : Command → UInt8
  | .state _ => 0x01
  | .endDr _ => 0x06
  | .endIr _ => 0x07
  | .frequency _ => 0x08
  | .runTest _ _ _ => 0x0B
  | .scan kind _ _ => kind.code

theorem head?_encode (c : Command) (rest : List UInt8) :
    (c.encode ++ rest).head? = some c.opcode := by
  cases c <;> rfl

theorem TapState.eq_of_cons {op : UInt8} {s t : TapState} {rest rest' : List UInt8}
    (h : op :: s.code :: rest = op :: t.code :: rest') : s = t ∧ rest = rest' := by
  rw [List.cons.injEq, List.cons.injEq] at h
  obtain ⟨-, hcode, hrest⟩ := h
  refine ⟨?_, hrest⟩
  cases s <;> cases t <;> first | rfl | exact absurd hcode (by decide)

theorem ScanKind.code_inj {k l : ScanKind} (h : k.code = l.code) : k = l := by
  cases k <;> cases l <;> first | rfl | exact absurd h (by decide)

/-- No other command starts with the byte of a scan. -/
theorem ScanKind.not_mem_code (k : ScanKind) : k.code ∉ [0x01, 0x06, 0x07, 0x08, 0x0B] := by
  cases k <;> decide

theorem mem_opcode {c : Command} (hscan : ∀ kind bits data, c ≠ .scan kind bits data) :
    c.opcode ∈ [0x01, 0x06, 0x07, 0x08, 0x0B] := by
  cases c with
  | scan kind bits data => exact absurd rfl (hscan kind bits data)
  | _ => simp [Command.opcode]

/-- A command that is no scan is told by its first byte, and has as many bytes as every command that
starts with it. -/
theorem eq_of_encode_append {c d : Command} (hc : c.Bounded) (hd : d.Bounded)
    (hscan : ∀ kind bits data, c ≠ .scan kind bits data) {rest rest' : List UInt8}
    (h : c.encode ++ rest = d.encode ++ rest') : c = d ∧ rest = rest' := by
  have hop : c.opcode = d.opcode := by
    have hhead := congrArg List.head? h
    rwa [head?_encode, head?_encode, Option.some.injEq] at hhead
  have hscan' : ∀ kind bits data, d ≠ .scan kind bits data := by
    rintro kind bits data rfl
    apply kind.not_mem_code
    rw [show kind.code = c.opcode from hop.symm]
    exact mem_opcode hscan
  cases c <;> cases d
  case state.state s t =>
    obtain ⟨rfl, hrest⟩ := TapState.eq_of_cons h
    exact ⟨rfl, hrest⟩
  case endDr.endDr s t =>
    obtain ⟨rfl, hrest⟩ := TapState.eq_of_cons h
    exact ⟨rfl, hrest⟩
  case endIr.endIr s t =>
    obtain ⟨rfl, hrest⟩ := TapState.eq_of_cons h
    exact ⟨rfl, hrest⟩
  case frequency.frequency f g =>
    obtain ⟨hbytes, hrest⟩ := List.append_inj (List.cons.inj h).2
      (by rw [length_toBytes, length_toBytes])
    rw [toBytes_inj hc hd hbytes]
    exact ⟨rfl, hrest⟩
  case runTest.runTest s n t s' n' t' =>
    obtain ⟨rfl, hfields⟩ := TapState.eq_of_cons h
    replace hfields : toBytes 2 n ++ toBytes 4 t ++ rest = toBytes 2 n' ++ toBytes 4 t' ++ rest' :=
      hfields
    rw [List.append_assoc, List.append_assoc] at hfields
    obtain ⟨hn, hfields⟩ := List.append_inj hfields (by rw [length_toBytes, length_toBytes])
    obtain ⟨ht, hrest⟩ := List.append_inj hfields (by rw [length_toBytes, length_toBytes])
    rw [toBytes_inj hc.1 hd.1 hn, toBytes_inj hc.2 hd.2 ht]
    exact ⟨rfl, hrest⟩
  all_goals first
    | exact absurd rfl (hscan _ _ _)
    | exact absurd rfl (hscan' _ _ _)
    | exact absurd hop (by simp [Command.opcode])

/-- Where two streams agree, their first commands do, or one list is misread as the other from
there on. -/
theorem head_eq_or_misread {c d : Command} (hc : c.Bounded ∧ c.Short) (hd : d.Bounded ∧ d.Short)
    (hcs : ∀ c ∈ cs, c.Bounded ∧ c.Short) (hds : ∀ c ∈ ds, c.Bounded ∧ c.Short)
    (h : stream (c :: cs) = stream (d :: ds)) :
    (c = d ∧ stream cs = stream ds) ∨ Misread (c :: cs) (d :: ds) ∨
      Misread (d :: ds) (c :: cs) := by
  rw [stream_cons, stream_cons] at h
  by_cases hscan : ∃ kind bits data, c = .scan kind bits data
  case neg =>
    apply Or.inl
    apply eq_of_encode_append hc.1 hd.1 _ h
    intro kind bits data hscan'
    exact hscan ⟨kind, bits, data, hscan'⟩
  by_cases hscan' : ∃ kind bits data, d = .scan kind bits data
  case neg =>
    obtain ⟨hdc, hrest⟩ := eq_of_encode_append hd.1 hc.1
      (fun kind bits data heq => hscan' ⟨kind, bits, data, heq⟩) h.symm
    exact Or.inl ⟨hdc.symm, hrest.symm⟩
  obtain ⟨kind, bits, e, rfl⟩ := hscan
  obtain ⟨kind', bits', e', rfl⟩ := hscan'
  rw [Command.encode, Command.encode, List.cons_append, List.cons_append, List.cons.injEq,
    List.append_assoc, List.append_assoc] at h
  obtain ⟨hkind, h⟩ := h
  obtain ⟨hbits, hdata⟩ := List.append_inj h (by rw [length_toBytes, length_toBytes])
  obtain rfl := ScanKind.code_inj hkind
  obtain rfl := toBytes_inj hc.1 hd.1 hbits
  rcases data_eq_or_cut hc.2 hd.2 (fun c hc => (hcs c hc).1) (fun d hd => (hds d hd).1) hdata with
    ⟨rfl, hrest⟩ | ⟨k, hcut | hcut⟩
  · exact Or.inl ⟨rfl, hrest⟩
  · exact Or.inr (Or.inl ⟨[], kind, bits, k, e, cs, e', ds, rfl, rfl, hcut⟩)
  · exact Or.inr (Or.inr ⟨[], kind, bits, k, e', ds, e, cs, rfl, rfl, hcut⟩)

theorem Misread.cons (h : Misread cs ds) (c : Command) : Misread (c :: cs) (c :: ds) := by
  obtain ⟨front, kind, bits, k, d, rest, d', rest', rfl, rfl, hcut⟩ := h
  exact ⟨c :: front, kind, bits, k, d, rest, d', rest', rfl, rfl, hcut⟩

theorem stream_ne_nil (c : Command) (cs : List Command) : stream (c :: cs) ≠ [] := by
  rw [stream_cons]
  cases c <;> exact List.cons_ne_nil _ _

/-- **Two lists of commands have one stream exactly when they are the same, or one is misread as the
other.** -/
theorem stream_eq_iff (hcs : ∀ c ∈ cs, c.Bounded ∧ c.Short) (hds : ∀ c ∈ ds, c.Bounded ∧ c.Short) :
    stream cs = stream ds ↔ cs = ds ∨ Misread cs ds ∨ Misread ds cs := by
  constructor
  · intro h
    induction cs generalizing ds with
    | nil =>
        cases ds with
        | nil => exact Or.inl rfl
        | cons d ds => exact absurd h.symm (stream_ne_nil d ds)
    | cons c cs ih =>
        cases ds with
        | nil => exact absurd h (stream_ne_nil c cs)
        | cons d ds =>
            obtain ⟨hc, hcs'⟩ := List.forall_mem_cons.1 hcs
            obtain ⟨hd, hds'⟩ := List.forall_mem_cons.1 hds
            rcases head_eq_or_misread hc hd hcs' hds' h with ⟨rfl, hrest⟩ | hmisread
            · rcases ih hcs' hds' hrest with rfl | hmisread | hmisread
              · exact Or.inl rfl
              · exact Or.inr (Or.inl (hmisread.cons c))
              · exact Or.inr (Or.inr (hmisread.cons c))
            · exact Or.inr hmisread
  · rintro (rfl | h | h)
    · rfl
    · exact h.stream_eq
    · exact h.stream_eq.symm

/-! ## Texts -/

theorem convert_eq {t : List Char} {cs : List Command} (h : commands t = .ok cs) :
    convert t = .ok (stream cs) := by
  rw [convert, h]
  rfl

/-- **A command stream tells the commands that it was made of, but for a piece of data that is
misread.** Two accepted texts whose data fill less than 2 ^ 32 bytes each have one stream exactly
when they denote the same commands, or when at the first place where they differ one scan has a mask
or an expected output, the other has no more data, the next command of the other is a scan of the
data register or of the instruction register with as many bits as the piece has bytes, and what
remains of both is the same bytes. -/
theorem convert_eq_iff {t u : List Char} (ht : commands t = .ok cs) (hu : commands u = .ok ds)
    (hcs : ∀ c ∈ cs, c.Short) (hds : ∀ c ∈ ds, c.Short) :
    convert t = convert u ↔ cs = ds ∨ Misread cs ds ∨ Misread ds cs := by
  rw [convert_eq ht, convert_eq hu, Except.ok.injEq]
  apply stream_eq_iff
  · intro c hc
    exact ⟨bounded_of_commands ht c hc, hcs c hc⟩
  · intro d hd
    exact ⟨bounded_of_commands hu d hd, hds d hd⟩

/-- A mask whose bytes are the head of an expected output, and a second scan with that expected
output. -/
theorem convert_eq_iff_mask :
    let t := "SDR 16 MASK (0D00000000) TDI (7F);".toList
    let u := "SDR 16; SDR 5 TDO () TDI (7F);".toList
    let cs : List Command := [.scan .sdr 16 { mask := some [0x0D, 0, 0, 0, 0], tdi := some [0x7F] }]
    let ds : List Command := [.scan .sdr 16 {}, .scan .sdr 5 { tdo := some [], tdi := some [0x7F] }]
    commands t = .ok cs ∧ commands u = .ok ds ∧ (∀ c ∈ cs, c.Short) ∧ (∀ c ∈ ds, c.Short) ∧
      Misread cs ds ∧ convert t = convert u := by
  intro t u cs ds
  have ht : commands t = .ok cs := by decide +kernel
  have hu : commands u = .ok ds := by decide +kernel
  have hcs : ∀ c ∈ cs, c.Short := by
    intro c hc
    rw [List.mem_singleton.1 hc]
    intro k v hv
    cases k <;> cases hv <;> decide
  have hds : ∀ c ∈ ds, c.Short := by
    intro c hc
    rcases List.mem_pair.1 hc with rfl | rfl
    · intro k v hv
      cases k <;> cases hv
    · intro k v hv
      cases k <;> cases hv <;> decide
  have hmisread : Misread cs ds :=
    ⟨[], .sdr, 16, .mask, _, [], {}, _, rfl, rfl, _, .sdr, _, [], rfl, rfl, rfl, rfl, rfl⟩
  exact ⟨ht, hu, hcs, hds, hmisread, (convert_eq_iff ht hu hcs hds).2 (Or.inr (Or.inl hmisread))⟩

/-- One command that expects two bytes, and three commands, with one stream. -/
theorem convert_expected_output :
    let t := "SDR 8 TDO (0101);".toList
    let u := "SDR 8; SIR 2; STATE RESET;".toList
    commands t = .ok [.scan .sdr 8 { tdo := some [1, 1] }] ∧
      commands u = .ok [.scan .sdr 8 {}, .scan .sir 2 {}, .state .reset] ∧
      commands t ≠ commands u ∧ convert t = convert u := by
  intro t u
  have ht : commands t = .ok [.scan .sdr 8 { tdo := some [1, 1] }] := by decide +kernel
  have hu : commands u = .ok [.scan .sdr 8 {}, .scan .sir 2 {}, .state .reset] := by decide +kernel
  refine ⟨ht, hu, ?_, by decide +kernel⟩
  rw [ht, hu]
  decide

end EmbeddedBuffers.Svf
