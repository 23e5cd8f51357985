import Easyio.CString.Basic

/-!
# The description of a firmware

The config file on the server describes a firmware.  `recv_http_buf` of
`applications/ota_http_tcp.c` copies what it needs into
`target_download_fw_info`, and `check_config` decides from there whether the
firmware is downloaded.

The JSON parser `cJSON_Parse` is a parameter: a function from the text to the
items of the object, if the text can be parsed.  `cJSON_GetObjectItem` returns a
null pointer for an item that is not there, and the code reads the item's type
through it; on this chip address zero is readable and what stands there is not a
type, so the item is passed over.
-/

namespace Easyio.Ota

open CString

/-- An item of a JSON object, as far as its type is looked at.  A number has been
converted to an `int`. -/
inductive JsonValue where
  | string (valuestring : List UInt8)
  | number (valueint : Int32)
  | other

/-- A parsed object: its items with their names, in order. -/
abbrev Json := List (List UInt8 × JsonValue)

/-- `cJSON_GetObjectItem`; the case of the name does not matter. -/
def getObjectItem (json : Json) (name : String) : Option JsonValue :=
  (json.find? fun item => item.1.map toLower = (ascii name).map toLower).map Prod.snd

/-- `struct OTA_DOWNLOAD_INFO`.  The strings are what stands in the character arrays up
to the first zero.  `version_name` is never written. -/
structure OtaDownloadInfo where
  version : UInt16
  /-- `filename[32]` -/
  filename : List UInt8
  fwFileSize : Int32
  /-- `mode[16]` -/
  mode : List UInt8
  /-- `checksum[36]` -/
  checksum : List UInt8

/-- The structure after `memset`. -/
def OtaDownloadInfo.cleared : OtaDownloadInfo := ⟨0, [], 0, [], []⟩

/-- A character array of the given size after the item `name` was looked up for it. -/
def readString (json : Json) (name : String) (size : ℕ) (old : List UInt8) : List UInt8 :=
  match getObjectItem json name with
  | some (.string s) => snprintfS size s
  | _ => old

/-- A number after the item `name` was looked up for it. -/
def readNumber {α : Type} (json : Json) (name : String) (convert : Int32 → α) (old : α) : α :=
  match getObjectItem json name with
  | some (.number n) => convert n
  | _ => old

/-- The branch of `recv_http_buf` for a config file.  The item `version_name` is stored
in `filename` as well. -/
def OtaDownloadInfo.update (info : OtaDownloadInfo) (json : Json) : OtaDownloadInfo where
  filename := readString json "version_name" 32 (readString json "filename" 32 info.filename)
  checksum := readString json "checksum" 36 info.checksum
  mode := readString json "mode" 16 info.mode
  fwFileSize := readNumber json "size" id info.fwFileSize
  version := readNumber json "version" (·.toUInt32.toUInt16) info.version

/-- `test_ota_flag` -/
inductive OtaFlag where
  | versionnumModeCfg
  | versionnumCfg
  | nullCfg
  deriving DecidableEq

/-- `versionstr` -/
def versionstr : String := "\x7b\"version_name\":\"V0.8\" , \"version\":41\x7d"

/-- The results of `check_config`: 0, 1 and 2. -/
inductive ConfigVerdict where
  | refused
  | accepted
  | manually
  deriving DecidableEq

/-- `check_config` -/
def checkConfig (parse : List UInt8 → Option Json) (flag : OtaFlag) (info : OtaDownloadInfo) :
    ConfigVerdict :=
  match (parse (ascii versionstr)).bind (getObjectItem · "version") with
  | some (.number current) =>
    if current.toInt < info.version.toNat then
      if flag = .versionnumCfg then .accepted
      else if (strstr (ascii "auto") info.mode).isSome then .accepted
      else if (strstr (ascii "manually") info.mode).isSome then .manually
      else .refused
    else .refused
  | _ => .refused

/-- A parser that reads the version of the running firmware right. -/
def KnowsVersion (parse : List UInt8 → Option Json) : Prop :=
  (parse (ascii versionstr)).bind (getObjectItem · "version") = some (.number 41)

/-- Only a firmware with a larger version is accepted. -/
theorem version_of_accepted {parse : List UInt8 → Option Json} {flag : OtaFlag}
    {info : OtaDownloadInfo} (hparse : KnowsVersion parse)
    (hcheck : checkConfig parse flag info = .accepted) : 41 < info.version.toNat := by
  rw [checkConfig, hparse] at hcheck
  by_contra hle
  have hcurrent : ¬ (41 : Int32).toInt < info.version.toNat := by
    have : (41 : Int32).toInt = 41 := rfl
    omega
  simp only [if_neg hcurrent] at hcheck
  cases hcheck

end Easyio.Ota
