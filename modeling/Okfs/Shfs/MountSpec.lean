import Okfs.Shfs.MountOptions
import Okfs.Shfs.CommandLine

/-!
# OKFS — what is mounted by shfs

The first field of a mount, `[user@]host[:root]`, is taken apart by `parse_fs_spec`: at the first
`@` of all, then at the first colon of what is left. `setup_command` makes the command of it that
opens the connection.
-/

namespace Okfs

namespace Shfs

open Components

-- ---------------------------------------------------------------------------
-- `shfs_mount`, up to the connection
-- ---------------------------------------------------------------------------

def BUFFER_MAX : Nat := 1024

def atSign : Byte := 64
def percent : Byte := 37

/-- The second half of `parse_fs_spec`, where `dp.host` is `host`. -/
def parseHost (host : CStr) (dp : MountData) : MountData :=
  match splitFirst colon host with
  | some (host, root) => { dp with host := some host, root := some root }
  | none =>
    if host.head? = some slash then { dp with root := some host, host := none } else dp

def parseFsSpec (fsSpec : CStr) (dp : MountData) : MountData :=
  let dp := { dp with host := some fsSpec, hostLong := some fsSpec }
  match splitFirst atSign fsSpec with
  | some (user, host) => parseHost host { dp with user := some user, host := some host }
  | none => parseHost fsSpec dp

/-- The loop over the pieces of `cmd_template` between percent signs. -/
def expandTemplate (dp : MountData) : CStr → CStr
  | [] => []
  | c :: template =>
    if c ≠ percent then c :: expandTemplate dp template
    else
      match template with
      | [] => [percent]
      | d :: rest =>
        if d = 117 then dp.user.getD [] ++ expandTemplate dp rest
        else if d = 104 then dp.host.getD [] ++ expandTemplate dp rest
        else if d = 80 then dp.port.getD [] ++ expandTemplate dp rest
        else percent :: expandTemplate dp (d :: rest)

/-- There is no result where the command is written behind its buffer, as `strncat` has the size of
the buffer for the size of what is left of it. -/
def setupCommand (dp : MountData) : Option (Except Unit MountData) :=
  match dp.cmdTemplate with
  | some template =>
    let cmd := expandTemplate dp template
    if cmd.length < BUFFER_MAX then some (.ok { dp with cmd := some cmd }) else none
  | none =>
    match dp.host with
    | none => some (.error ())
    | some host =>
      let cmd := snprintf BUFFER_MAX
        [.text (ascii "exec ssh "), .str (if dp.port.isSome then ascii "-p " else []),
          .str (dp.port.getD []), .text [space], .str (if dp.user.isSome then ascii "-l " else []),
          .str (dp.user.getD []), .text [space], .str host, .text [space], .str (ascii "/bin/sh")]
      some (.ok { dp with cmd := some cmd })

/-- The data that `create_socket_sh` is called with. -/
def shfsMountData (sys : System) (stack : Int) (fsSpec opts : CStr) :
    Option (Except Unit MountData) :=
  match shfsDataInit sys stack opts with
  | some (.ok dp) => setupCommand (parseFsSpec fsSpec dp)
  | failed => failed

-- ---------------------------------------------------------------------------
-- What is to be mounted
-- ---------------------------------------------------------------------------

/-- No separator of a specification, and no root directory. -/
def Plain (s : CStr) : Prop := atSign ∉ s ∧ colon ∉ s ∧ slash ∉ s

structure FsSpec where
  user : Option CStr
  host : CStr
  root : Option CStr
  user_plain : ∀ u ∈ user, Plain u
  host_plain : Plain host

namespace FsSpec

/-- `host[:root]` -/
def printHost (spec : FsSpec) : CStr :=
  spec.host ++ match spec.root with
    | some root => colon :: root
    | none => []

/-- `[user@]host[:root]` -/
def print (spec : FsSpec) : CStr :=
  match spec.user with
  | some user => user ++ atSign :: spec.printHost
  | none => spec.printHost

/-- The command that opens the connection. -/
def command (spec : FsSpec) : CStr :=
  ascii "exec ssh  " ++ (match spec.user with | some user => ascii "-l " ++ user | none => []) ++
    [space] ++ spec.host ++ ascii " /bin/sh"

/-- The data says the same as the specification. -/
structure InData (spec : FsSpec) (dp : MountData) : Prop where
  user : dp.user = spec.user
  host : dp.host = some spec.host
  root : dp.root = spec.root
  cmd : dp.cmd = some spec.command

/-- The specification is mounted as what it is. -/
def Mounted (sys : System) (stack : Int) (opts : CStr) (spec : FsSpec) : Prop :=
  ∃ dp, shfsMountData sys stack spec.print opts = some (.ok dp) ∧ spec.InData dp

/-- No `@` of the root directory comes first. -/
def Unambiguous (spec : FsSpec) : Prop := spec.user = none → ∀ root ∈ spec.root, atSign ∉ root

-- ---------------------------------------------------------------------------
-- Cutting
-- ---------------------------------------------------------------------------

variable {sys : System} {stack : Int} {opts : CStr} {spec : FsSpec} {dp dp' : MountData}

theorem parseHost_printHost (hhost : dp.host = some spec.printHost) (hroot : dp.root = none) :
    parseHost spec.printHost dp = { dp with host := some spec.host, root := spec.root } := by
  obtain ⟨-, hcolon, hslash⟩ := spec.host_plain
  unfold parseHost
  unfold printHost at hhost ⊢
  cases hr : spec.root with
  | some root => rw [splitFirst_append_sep hcolon]
  | none =>
    rw [hr, List.append_nil] at hhost
    have hhead : spec.host.head? ≠ some slash := fun h => hslash (List.mem_of_head? h)
    rw [List.append_nil, splitFirst_of_not_mem hcolon]
    dsimp only
    rw [if_neg hhead, ← hhost, ← hroot]

/-- `parse_fs_spec` recovers what was printed. -/
theorem parseFsSpec_print (h : spec.Unambiguous) :
    parseFsSpec spec.print (defaults sys opts) =
      { defaults sys opts with
        user := spec.user, host := some spec.host, root := spec.root
        hostLong := some spec.print } := by
  unfold parseFsSpec print
  cases huser : spec.user with
  | some user =>
    have hplain := spec.user_plain user (by rw [huser]; exact rfl)
    dsimp only
    rw [splitFirst_append_sep hplain.1]
    exact parseHost_printHost rfl rfl
  | none =>
    have hat : atSign ∉ spec.printHost := by
      unfold printHost
      cases hroot : spec.root with
      | none =>
        rw [List.append_nil]
        exact spec.host_plain.1
      | some root =>
        rw [List.mem_append, List.mem_cons]
        rintro (hmem | hmem | hmem)
        · exact spec.host_plain.1 hmem
        · exact absurd hmem (by decide)
        · exact h huser root (by rw [hroot]; exact rfl) hmem
    dsimp only
    rw [splitFirst_of_not_mem hat]
    exact parseHost_printHost rfl rfl

theorem parseHost_user (host : CStr) (dp : MountData) : (parseHost host dp).user = dp.user := by
  unfold parseHost
  split
  · rfl
  · split <;> rfl

/-- What is in front of an `@` is taken for a user. -/
theorem parseFsSpec_user {fsSpec : CStr} (h : atSign ∈ fsSpec) :
    (parseFsSpec fsSpec dp).user ≠ none := by
  obtain ⟨user, host, hsplit⟩ := splitFirst_of_mem h
  unfold parseFsSpec
  rw [hsplit]
  dsimp only
  rw [parseHost_user]
  exact Option.some_ne_none user

theorem parseFsSpec_cmdTemplate (fsSpec : CStr) (dp : MountData) :
    (parseFsSpec fsSpec dp).cmdTemplate = dp.cmdTemplate := by
  have hhost : ∀ host dp, (parseHost host dp).cmdTemplate = dp.cmdTemplate := by
    intro host dp
    unfold parseHost
    split
    · rfl
    · split <;> rfl
  unfold parseFsSpec
  dsimp only
  split
  all_goals rw [hhost]

theorem setupCommand_user (h : setupCommand dp = some (.ok dp')) : dp'.user = dp.user := by
  unfold setupCommand at h
  split at h
  · dsimp only at h
    split_ifs at h
    rw [Option.some.injEq, Except.ok.injEq] at h
    rw [← h]
  · split at h
    · cases h
    · rw [Option.some.injEq, Except.ok.injEq] at h
      rw [← h]

-- ---------------------------------------------------------------------------
-- The command
-- ---------------------------------------------------------------------------

/-- The command, as far as it fits. -/
theorem setupCommand_spec (hport : dp.port = none) (htemplate : dp.cmdTemplate = none)
    (huser : dp.user = spec.user) (hhost : dp.host = some spec.host) :
    setupCommand dp = some (.ok { dp with cmd := some (spec.command.take (BUFFER_MAX - 1)) }) := by
  have htext : formatted [.text (ascii "exec ssh "),
      .str (if dp.port.isSome then ascii "-p " else []), .str (dp.port.getD []), .text [space],
      .str (if dp.user.isSome then ascii "-l " else []), .str (dp.user.getD []), .text [space],
      .str spec.host, .text [space], .str (ascii "/bin/sh")] = spec.command := by
    have hslots : ascii "exec ssh  " = ascii "exec ssh " ++ [space] := rfl
    have hshell : ascii " /bin/sh" = space :: ascii "/bin/sh" := rfl
    rw [command, hport, huser, hslots, hshell]
    cases spec.user with
    | none => simp [formatted, Piece.printed]
    | some user => simp [formatted, Piece.printed]
  unfold setupCommand snprintf
  rw [htemplate]
  dsimp only
  rw [hhost]
  dsimp only
  rw [htext]

theorem shfsMountData_eq (fsSpec : CStr) :
    shfsMountData sys stack fsSpec opts = setupCommand (parseFsSpec fsSpec (defaults sys opts)) := by
  rw [shfsMountData, shfsDataInit_eq]

/-- Without a template for the command there is a result. -/
theorem shfsMountData_isSome (fsSpec : CStr) :
    ∃ r, shfsMountData sys stack fsSpec opts = some r := by
  rw [shfsMountData_eq, setupCommand, parseFsSpec_cmdTemplate]
  dsimp only [defaults]
  split
  · exact ⟨_, rfl⟩
  · exact ⟨_, rfl⟩

/-- **Exactly where no `@` of the root directory comes first, and the command fits,** is a
filesystem mounted from where it says. -/
theorem mounted_iff (sys : System) (stack : Int) (opts : CStr) (spec : FsSpec) :
    spec.Mounted sys stack opts ↔ spec.Unambiguous ∧ spec.command.length < BUFFER_MAX := by
  unfold Mounted
  rw [shfsMountData_eq]
  by_cases h : spec.Unambiguous
  · rw [parseFsSpec_print h, setupCommand_spec rfl rfl rfl rfl]
    have hmax : BUFFER_MAX = 1024 := rfl
    constructor
    · rintro ⟨dp, hdp, hin⟩
      rw [Option.some.injEq, Except.ok.injEq] at hdp
      have hlen := hin.cmd
      rw [← hdp, Option.some.injEq, List.take_eq_self_iff] at hlen
      exact ⟨h, by omega⟩
    · rintro ⟨-, hfits⟩
      refine ⟨_, rfl, rfl, rfl, rfl, ?_⟩
      rw [List.take_of_length_le (by omega)]
  · refine iff_of_false ?_ (fun hand => h hand.1)
    rintro ⟨dp, hdp, hin⟩
    unfold Unambiguous at h
    push Not at h
    obtain ⟨huser, root, hroot, hat⟩ := h
    have hmem : atSign ∈ spec.print := by
      unfold print printHost
      rw [huser, hroot]
      exact List.mem_append_right _ (List.mem_cons_of_mem _ hat)
    have hsome : (parseFsSpec spec.print (defaults sys opts)).user ≠ none := parseFsSpec_user hmem
    apply hsome
    rw [← setupCommand_user hdp, hin.user, huser]

end FsSpec

/-- The directory `/a@b` of `host`. -/
def backupSpec : FsSpec where
  user := none
  host := ascii "host"
  root := some (ascii "/a@b")
  user_plain := fun u hu => by cases hu
  host_plain := ⟨by decide, by decide, by decide⟩

/-- It is mounted from the home directory of `host:/a` on `b`. -/
theorem not_mounted_backupSpec :
    ¬ ∀ sys stack opts, ∀ spec : FsSpec, spec.Mounted sys stack opts := by
  intro hall
  obtain ⟨dp, hdp, hin⟩ := hall rootOnly 0 [] backupSpec
  have hdata : shfsMountData rootOnly 0 backupSpec.print [] =
      some (.ok { defaults rootOnly [] with
        user := some (ascii "host:/a"), host := some (ascii "b")
        hostLong := some (ascii "host:/a@b")
        cmd := some (ascii "exec ssh  -l host:/a b /bin/sh") }) := rfl
  rw [hdata, Option.some.injEq, Except.ok.injEq] at hdp
  have huser := hin.user
  rw [← hdp] at huser
  cases huser

end Shfs

end Okfs
