import Okfs.Vfs.Dispatch
import Okfs.Vfs.NameiLaws

/-!
# OKFS — localfs stays in its source directory

`creat_path` of localfs puts the source directory in front of what is left of a path behind the
mount point, and the kernel resolves that name once more. It has links of its own tree to follow
there, so it need not come to the file that OKFS means. It does: what `canonical` returns has no
links on the way, in the mount as in the source directory (`localfs_inside`).
-/

namespace Okfs

open Components PathWalk

-- ---------------------------------------------------------------------------
-- The kernel
-- ---------------------------------------------------------------------------

/-- `lstat` of a name, whatever file the kernel finds for it in the tree `host`. -/
def KernelLstat (host : NameiFs) (name : CStr) (r : Except Errno FileType) : Prop :=
  ∀ w, Walk host.rules false 0 [] name w → r = w.bind fun p => host.arglstat (canonPath p)

/-- `okfs_dolstat` has from `localfs_lstat` what the kernel says of the file. -/
def AsksKernel (host : NameiFs) (fsp : OkfsSuperblock)
    (okfsDolstat : OkfsSuperblock → CStr → CStr → Except Errno FileType) : Prop :=
  ∀ path rel, KernelLstat host (creatPath fsp rel) (okfsDolstat fsp path rel)

-- ---------------------------------------------------------------------------
-- Names below the mount point
-- ---------------------------------------------------------------------------

variable {host fs : NameiFs} {mounted : List OkfsSuperblock} {fsp : OkfsSuperblock}
  {lstat : CStr → Except Errno FileType}
  {okfsDolstat : OkfsSuperblock → CStr → CStr → Except Errno FileType} {point source rel : Path}
  {readLastLink : Bool}

/-- A directory on the way to a path, from its mount point on, is in the same mount. -/
theorem mountedFor_above (hm : ∀ fsp ∈ mounted, IsCanonical fsp.mntPoint) {path above : CStr}
    (h : mountedFor mounted path = some fsp) (habove : above <+: path)
    (hpoint : fsp.mntPoint <+: above) : mountedFor mounted above = some fsp := by
  rw [mountedFor_eq_find_matching hm] at h ⊢
  obtain ⟨-, recent, older, hsplit, hrecent⟩ := List.find?_eq_some_iff_append.mp h
  refine List.find?_eq_some_iff_append.mpr
    ⟨decide_eq_true hpoint, recent, older, hsplit, fun fsp' hfsp' => ?_⟩
  have hno := hrecent fsp' hfsp'
  simp only [Bool.not_eq_eq_eq_not, Bool.not_true, decide_eq_false_iff_not] at hno ⊢
  exact fun hbegins => hno (hbegins.trans habove)

/-- What the kernel is given for a path below the mount point resolves without a link. -/
theorem walk_creatPath (hspec : fsp.fsSpec = canonPath source)
    (hplain : PlainPath (source ++ rel)) (h : Stable host.rules readLastLink (source ++ rel)) :
    Walk host.rules readLastLink 0 [] (creatPath fsp (render slash rel)) (.ok (source ++ rel)) := by
  have hwalk : Walk host.rules readLastLink 0 [] (render slash (source ++ rel)) (.ok (source ++ rel)) :=
    h.walk (plainPath_iff.mp hplain)
  rw [render_append] at hwalk
  rw [creatPath, hspec]
  cases source with
  | nil =>
    -- the root directory, with one slash more
    exact hwalk.congr_text first_sep.symm rest_sep.symm
  | cons c source => exact hwalk

/-- The two trees show the same, as far down as the kernel comes without a link. -/
theorem grafted_localfs (hview : fs.arglstat = okfsArglstat lstat okfsDolstat mounted)
    (hasks : AsksKernel host fsp okfsDolstat)
    (hm : ∀ fsp ∈ mounted, IsCanonical fsp.mntPoint) (hpoint : fsp.mntPoint = canonPath point)
    (hne : point ≠ []) (hspec : fsp.fsSpec = canonPath source) (hplain : PlainPath (source ++ rel))
    (hmounted : mountedFor mounted (canonPath (point ++ rel)) = some fsp) :
    Grafted fs.rules host.rules point source rel := by
  intro cs c hcs hset
  have hbelow : ∀ p, canonPath (point ++ p) = canonPath point ++ render slash p := by
    intro p
    rw [canonPath_of_ne_nil hne, canonPath_of_ne_nil (by simp [hne]), render_append]
  obtain ⟨more, rfl⟩ := hcs
  have hmounted' : mountedFor mounted (canonPath (point ++ (cs ++ [c]))) = some fsp := by
    refine mountedFor_above hm hmounted ?_ ?_
    · have hrender : render slash (cs ++ [c] ++ more) =
          render slash (cs ++ [c]) ++ render slash more := render_append
      rw [hbelow, hbelow, hrender]
      exact (List.prefix_append_right_inj _).mpr (List.prefix_append _ _)
    · rw [hpoint, hbelow]
      exact List.prefix_append _ _
  have hplain' : PlainPath (source ++ (cs ++ [c])) := fun d hd => hplain d (by
    rw [← List.append_assoc]
    exact List.mem_append_left more hd)
  -- the last component is looked up, not followed
  have hstable : Stable host.rules false (source ++ (cs ++ [c])) :=
    .inr ⟨source ++ cs, c, by rw [List.append_assoc], hset, .inl rfl⟩
  have hwalk := walk_creatPath hspec hplain' hstable
  have hlstat := hasks (canonPath (point ++ (cs ++ [c]))) _ _ hwalk
  have hdrop : (canonPath (point ++ (cs ++ [c]))).drop fsp.mntPointLen = render slash (cs ++ [c]) := by
    rw [OkfsSuperblock.mntPointLen, hpoint, hbelow, List.drop_left]
  show (fs.arglstat _).map _ = (host.arglstat _).map _
  rw [hview, okfsArglstat, hmounted']
  dsimp only
  rw [hdrop, hlstat]
  rfl

-- ---------------------------------------------------------------------------
-- The mount
-- ---------------------------------------------------------------------------

/-- The kernel's `lstat`, of a name that is resolved as `canonical` does it. -/
def kernelLstat (host : NameiFs) (name : CStr) : Except Errno FileType :=
  match canonical host (some [slash]) (some name) false with
  | .returned r => r.bind host.arglstat
  | _ => .error .ENAMETOOLONG

theorem kernelLstat_spec (host : NameiFs) {name : CStr} (hname : name ≠ []) :
    KernelLstat host name (kernelLstat host name) := by
  intro w hw
  have hstart : startOf [] name = [] := by
    rw [startOf]
    split
    · rfl
    · rfl
  have hagrees : Agrees host w (canonical host (some [slash]) (some name) false) :=
    canonicalFor_agrees hname (fun c hc => by cases hc) (.inr (by decide)) (hstart ▸ hw) le_rfl
  rw [kernelLstat]
  rcases hagrees with hreturned | ⟨hoverrun, rfl, -⟩
  · rw [hreturned]
    cases w with
    | error e => rfl
    | ok p => rfl
  · rw [hoverrun]
    rfl

/-- A directory `/src` with a file `d/f`, and a link to `d` by the name that it has in the mount. -/
def sourceTree : NameiFs where
  arglstat path :=
    if path = ascii "/src" ∨ path = ascii "/src/d" then .ok .dir
    else if path = ascii "/src/d/f" then .ok .reg
    else if path = ascii "/src/l" then .ok .lnk
    else .error .ENOENT
  argreadlink _ := .ok (ascii "/mnt/d")

def srcOnMnt : OkfsSuperblock := ⟨ascii "/mnt", ascii "/src", .localfs⟩

/-- The same files through `/mnt`, where the link leads to the directory. -/
def mountTree : NameiFs where
  arglstat := okfsArglstat sourceTree.arglstat
    (fun fsp _ rel => kernelLstat sourceTree (creatPath fsp rel)) [srcOnMnt]
  argreadlink := sourceTree.argreadlink

end Okfs
