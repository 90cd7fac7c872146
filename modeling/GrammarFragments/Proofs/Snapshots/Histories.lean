import GrammarFragments.Proofs.Simulation.Recognizers
import GrammarFragments.Proofs.Snapshots.Codec

/-!
Histories of a host that serves several payloads, each with a scanner of its own. The host may call
in any order, scan the text of any lexer, and restore a payload from any bytes.

Beside the sessions, the host keeps account of where the restored bytes come from. A payload is
genuine as long as every buffer restored into it since its creation was empty or a snapshot, taken
earlier, of a payload that was genuine at the time; the archive holds those snapshots.

One call keeps the tags of all payloads well formed, and those of genuine payloads empty
(`perform_sound`), so a whole history does (`run_sound`). A recognizer opens and closes quoted texts
many times in one scan, but all that it does to the context it leaves is to forget the tag.

Main statement: in every history, a snapshot restores the context it was taken of, unless the tag is
too long for the buffer of the host, and a genuine payload never has a tag
(`snapshots_lose_nothing`).
-/

set_option autoImplicit false
set_option relaxedAutoImplicit false

namespace GrammarFragments

/-- What a host asks of a payload. The null buffer is the empty one. -/
inductive HostRequest
  | create
  | destroy
  | scan (lexer : HostLexer) (flags : List Bool)
  | snapshot
  | restore (bytes : List UInt8)

/-- A request for one of the payloads, which are known by number. -/
structure HostCall where
  payload : Nat
  request : HostRequest

/-- The session after a request. -/
def HostSession.serve (session : HostSession) : HostRequest → HostSession
  | .create => session.create
  | .destroy => session.destroy
  | .scan lexer flags => (session.scan lexer flags).1
  | .snapshot => session
  | .restore bytes => (session.restore bytes).1

/-- The payloads of a host and the origin of what was restored into them. -/
structure Host where
  session : Nat → HostSession
  /-- Whether all buffers restored into a payload since its creation were empty or archived. -/
  genuine : Nat → Bool
  /-- The snapshots that were taken of genuine payloads. -/
  archive : List (List UInt8)

namespace Host

/-- A host without scanners. -/
def idle : Host := ⟨fun _ ↦ .absent, fun _ ↦ true, []⟩

/-- Whether a genuine payload stays so, and a new one is. -/
def staysGenuine (host : Host) (payload : Nat) : HostRequest → Bool
  | .create => true
  | .restore bytes => host.genuine payload && (bytes.isEmpty || host.archive.contains bytes)
  | _ => host.genuine payload

/-- The archive after a call. -/
def archiveAfter (host : Host) (call : HostCall) : List (List UInt8) :=
  match call.request with
  | .snapshot =>
    if host.genuine call.payload then (host.session call.payload).snapshot.1 :: host.archive
    else host.archive
  | _ => host.archive

/-- Makes one call, which reaches no other payload. -/
def perform (host : Host) (call : HostCall) : Host where
  session payload :=
    if payload = call.payload then (host.session payload).serve call.request
    else host.session payload
  genuine payload :=
    if payload = call.payload then host.staysGenuine payload call.request
    else host.genuine payload
  archive := host.archiveAfter call

/-- Makes the calls of a history one after the other. -/
def run (host : Host) (calls : List HostCall) : Host := calls.foldl perform host

end Host

namespace HostSession

/-! ### One request -/

theorem scanner_scan (session : HostSession) (lexer : HostLexer) (flags : List Bool) :
    (session.scan lexer flags).1.scanner = session.scanner.map fun context ↦
      (GrammarFragments.scan (Request.ofFlags flags) lexer context).context := by
  rw [scan]
  cases hscanner : session.scanner with
  | none => exact hscanner
  | some context => rfl

theorem scanner_restore (session : HostSession) (bytes : List UInt8) :
    (session.restore bytes).1.scanner =
      session.scanner.map fun _ ↦ (Context.restore bytes).context := by
  rw [restore]
  cases hscanner : session.scanner with
  | none => exact hscanner
  | some context => rfl

/-- The scanner, if there is one, has a context with a property. -/
def Holds (kept : Context → Prop) (session : HostSession) : Prop :=
  ∀ context, session.scanner = some context → kept context

/-- Assumes: a property of the initial context that forgetting the tag and turning the in-string
flag keep, and which holds of the context that the request restores, if it is one to restore. The
request keeps the property. -/
theorem serve_holds {kept : Context → Prop} (hinitial : kept .initial)
    (hclear : ∀ context, kept context → kept context.clearTag)
    (htoggle : ∀ context, kept context → kept { context with inString := !context.inString })
    {request : HostRequest}
    (hrestored : ∀ bytes, request = .restore bytes → kept (Context.restore bytes).context)
    {session : HostSession} (hholds : session.Holds kept) : (session.serve request).Holds kept := by
  intro after hafter
  cases request with
  | create =>
    cases hafter
    exact hinitial
  | destroy => cases hafter
  | scan lexer flags =>
    rw [serve, scanner_scan, Option.map_eq_some_iff] at hafter
    obtain ⟨context, hscanner, rfl⟩ := hafter
    exact scan_keeps kept hclear htoggle _ lexer (hholds context hscanner)
  | snapshot => exact hholds after hafter
  | restore bytes =>
    rw [serve, scanner_restore, Option.map_eq_some_iff] at hafter
    obtain ⟨context, -, rfl⟩ := hafter
    exact hrestored bytes rfl

theorem serve_wellTagged {session : HostSession} (hholds : session.Holds Context.WellTagged)
    (request : HostRequest) : (session.serve request).Holds Context.WellTagged := by
  refine serve_holds ?_ ?_ ?_ ?_ hholds
  · exact Context.wellTagged_of_tag_eq_nil rfl
  · intro context _
    exact Context.wellTagged_of_tag_eq_nil rfl
  · intro context hwell
    exact hwell
  · intro bytes _
    exact Context.restore_wellTagged bytes

/-- Assumes: a request that restores no tag, if it is one to restore. A scanner without a tag stays
without one. -/
theorem serve_untagged {session : HostSession} (hholds : session.Holds (·.tag = []))
    {request : HostRequest}
    (hrestored : ∀ bytes, request = .restore bytes → (Context.restore bytes).context.tag = []) :
    (session.serve request).Holds (·.tag = []) := by
  refine serve_holds ?_ ?_ ?_ hrestored hholds
  · rfl
  · intro context _
    rfl
  · intro context htag
    exact htag

/-- The snapshot of a scanner without a tag is its flag. -/
theorem snapshot_eq_flag {context : Context} (htag : context.tag = []) :
    (snapshot ⟨some context⟩).1 = [Context.flagByte context.inString] := by
  rw [snapshot_eq, htag, if_pos (by decide), Context.encode, htag]

/-- The snapshot of a scanner without a tag restores no tag. -/
theorem restore_snapshot_untagged {session : HostSession} (hholds : session.Holds (·.tag = [])) :
    (Context.restore session.snapshot.1).context.tag = [] := by
  cases session with
  | mk scanner =>
    cases scanner with
    | none => rfl
    | some context =>
      have htag : context.tag = [] := hholds context rfl
      have hencode : (snapshot ⟨some context⟩).1 = context.encode := by
        rw [snapshot_eq_flag htag, Context.encode, htag]
      rw [hencode, Context.restore_encode (Context.wellTagged_of_tag_eq_nil htag)]
      exact htag

end HostSession

namespace Host

/-! ### One call and a whole history -/

/-- What every history keeps: all tags are well formed, genuine payloads have none, and no archived
snapshot restores one. -/
structure Sound (host : Host) : Prop where
  wellTagged : ∀ payload, (host.session payload).Holds Context.WellTagged
  untagged : ∀ payload, host.genuine payload = true → (host.session payload).Holds (·.tag = [])
  archive_untagged : ∀ bytes ∈ host.archive, (Context.restore bytes).context.tag = []

theorem idle_sound : idle.Sound where
  wellTagged := by
    intro payload context hcontext
    cases hcontext
  untagged := by
    intro payload _ context hcontext
    cases hcontext
  archive_untagged := by
    intro bytes hbytes
    cases hbytes

/-- Assumes: a sound host, and a payload that a request leaves genuine. Its scanner has no tag. -/
theorem genuine_untagged {host : Host} (hsound : host.Sound) {payload : Nat} {request : HostRequest}
    (hgenuine : host.staysGenuine payload request = true) :
    ((host.session payload).serve request).Holds (·.tag = []) := by
  cases request with
  | create =>
    intro context hcontext
    cases hcontext
    rfl
  | restore bytes =>
    simp only [staysGenuine, Bool.and_eq_true, Bool.or_eq_true, List.isEmpty_iff,
      List.contains_iff_mem] at hgenuine
    obtain ⟨hbefore, horigin⟩ := hgenuine
    refine HostSession.serve_untagged (hsound.untagged payload hbefore) ?_
    intro restored hrestored
    cases hrestored
    rcases horigin with hempty | harchived
    · rw [hempty]
      rfl
    · exact hsound.archive_untagged bytes harchived
  | destroy | scan | snapshot =>
    refine HostSession.serve_untagged (hsound.untagged payload hgenuine) ?_
    intro bytes hrequest
    cases hrequest

theorem archiveAfter_untagged {host : Host} (hsound : host.Sound) (call : HostCall) :
    ∀ bytes ∈ host.archiveAfter call, (Context.restore bytes).context.tag = [] := by
  rw [archiveAfter]
  split
  · split
    · rename_i hgenuine
      rw [List.forall_mem_cons]
      exact ⟨HostSession.restore_snapshot_untagged (hsound.untagged call.payload hgenuine),
        hsound.archive_untagged⟩
    · exact hsound.archive_untagged
  · exact hsound.archive_untagged

/-- One call keeps a host sound. -/
theorem perform_sound {host : Host} (hsound : host.Sound) (call : HostCall) :
    (host.perform call).Sound where
  wellTagged := by
    intro payload
    simp only [perform]
    split
    · exact HostSession.serve_wellTagged (hsound.wellTagged payload) call.request
    · exact hsound.wellTagged payload
  untagged := by
    intro payload hgenuine
    simp only [perform] at hgenuine ⊢
    by_cases hpayload : payload = call.payload
    · rw [if_pos hpayload] at hgenuine ⊢
      exact genuine_untagged hsound hgenuine
    · rw [if_neg hpayload] at hgenuine ⊢
      exact hsound.untagged payload hgenuine
  archive_untagged := archiveAfter_untagged hsound call

/-- A history keeps a host sound. -/
theorem run_sound {host : Host} (hsound : host.Sound) (calls : List HostCall) :
    (host.run calls).Sound := by
  induction calls generalizing host with
  | nil => exact hsound
  | cons call calls ih => exact ih (perform_sound hsound call)

end Host

/-- Assumes: a payload that has a scanner after some history. Its tag holds nothing but lower-case
letters and underscores. Its snapshot restores the context of the scanner in any other one, if the
tag has at most 1023 bytes, and the initial context if not. If nothing but empty buffers and
snapshots of genuine payloads was restored into it, the tag is empty and the snapshot is one byte,
the in-string flag. -/
theorem snapshots_lose_nothing (calls : List HostCall) (payload : Nat) (context : Context)
    (hscanner : ((Host.idle.run calls).session payload).scanner = some context) :
    let host := Host.idle.run calls
    let written := (host.session payload).snapshot.1
    (∀ byte ∈ context.tag, isTagByte byte = true) ∧
      (∀ other : Context, (HostSession.restore ⟨some other⟩ written).1 =
        ⟨some (if context.tag.length ≤ 1023 then context else .initial)⟩) ∧
      (host.genuine payload = true →
        context.tag = [] ∧ written = [if context.inString then 1 else 0]) := by
  intro host written
  have hsound : host.Sound := Host.run_sound Host.idle_sound calls
  have hwell : context.WellTagged := hsound.wellTagged payload context hscanner
  have hwritten : written = (HostSession.snapshot ⟨some context⟩).1 := by
    show (host.session payload).snapshot.1 = _
    rw [← hscanner]
  refine ⟨hwell, ?_, ?_⟩
  · intro other
    rw [hwritten, HostSession.snapshot_eq]
    show HostSession.mk (some (Context.restore _).context) = _
    split
    · rw [Context.restore_encode hwell]
    · rfl
  · intro hgenuine
    have htag : context.tag = [] := hsound.untagged payload hgenuine context hscanner
    exact ⟨htag, hwritten.trans (HostSession.snapshot_eq_flag htag)⟩

/-- One payload passes a double quote, and its snapshot is restored into another. -/
theorem snapshots_lose_nothing_witness :
    let lexer := HostLexer.ofText "\""
    let flags := [false, true, false, false, false]
    let calls : List HostCall :=
      [⟨0, .create⟩, ⟨0, .scan lexer flags⟩, ⟨0, .snapshot⟩, ⟨1, .create⟩, ⟨1, .restore [1]⟩]
    let host := Host.idle.run calls
    (host.session 1).scanner = some ⟨true, []⟩ ∧ host.genuine 1 = true ∧
      (∀ other : Context,
        (HostSession.restore ⟨some other⟩ (host.session 1).snapshot.1).1 = ⟨some ⟨true, []⟩⟩) ∧
      (host.session 1).snapshot.1 = [1] := by
  intro lexer flags calls host
  have hskip : Reader.skipWhile isBlank lexer = lexer := by
    rw [Reader.skipWhile, if_neg (by decide), if_neg (by decide)]
  have hscan : (HostSession.scan ⟨some .initial⟩ lexer flags).1 = ⟨some ⟨true, []⟩⟩ := by
    simp only [HostSession.scan, scan, hskip]
    decide
  have hgenuine : host.genuine 1 = true := by
    show (true && ([1].isEmpty ||
      [(HostSession.scan ⟨some .initial⟩ lexer flags).1.snapshot.1].contains [1])) = true
    rw [hscan, HostSession.snapshot_eq]
    rfl
  obtain ⟨-, hrestored, hsnapshot⟩ := snapshots_lose_nothing calls 1 ⟨true, []⟩ rfl
  exact ⟨rfl, hgenuine, hrestored, (hsnapshot hgenuine).2⟩

end GrammarFragments
