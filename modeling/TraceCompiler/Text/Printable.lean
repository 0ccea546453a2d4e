import TraceCompiler.Text.Basic
import TraceCompiler.Text.Utf8

/-! # Printable characters

The letters, digits and marks of all scripts. Messages show names between double quotes.
-/

namespace TraceCompiler.Text

/-- Whether a number lies in a set, given the lengths of the runs of numbers outside and inside of
it in turn. -/
def inRuns : List Nat → Nat → Bool
  | outside :: inside :: runs, n =>
    outside ≤ n && (n < outside + inside || inRuns runs (n - outside - inside))
  | _, _ => false

/-- Lengths written one after the other: a letter counts from `@` on, and other lengths have digits. -/
def lengths : Nat → List Char → List Nat
  | n, [] => if n = 0 then [] else [n]
  | n, c :: cs =>
    if c.isDigit then lengths (10 * n + (c.toNat - 48)) cs
    else (if n = 0 then [] else [n]) ++ (if c.isAlpha then [c.toNat - 64] else []) ++ lengths 0 cs

def letterRuns : List Nat := lengths 0 "
  170AJADAEWA31A458DLNEGAAA129EABBDAAFAACAAATA83A139H166AfBAFi71,27DDmkcBA99AAOBGBJCBAPAA30,29,89KAX
  aIBDAEVDAIACAWYGKEXAGPjzvCARAGJOPDHBBBVAGAACDCAPAMBACNBJAHFDBBVAGABABAB31DAASCPIACAVAGABAECARAOBWA
  KHBBBVAGABAECA30BACOAQAAFCCADCBAAABCBCCCLVAtHACAWAPCAZCABBB30ADHACAWAJAECA30CABOBQIACAiBAPAECHCXFE
  RCXAIAABGzpABLGzBAAAEAXAAAJABIABEAAUD32A63HAd27E115kTAPFDDCACBGCDMLAQfAAEABkA333ADBGAAADBiADBaADBG
  AAADBOAyADB67ePP86BFC620BQAZE75FHGRMSNRNMACOtcADA67,89GEBbAAE70J31q30BEKlDZvWIu82A93oQHv30MBJlZdiC
  JdBKEkBCiDAFABCAE192,64,278BFBfBFBHAAAAAAA31BuAGAACCAGCDBFDMECAG116AMAPM101ADABJAACEFAAAAAADAKBDEE
  DAtB2683,229FDCBLfAAEABxGAPWIGAGAGAGAGAGAGAG80A469BjEEBD86FCA90ADEkA94Q32pP512,6592,64,22157,67nB
  269CPJBToP31B70qIB103B82TQACADAW29tNr62FCAABK28JWY29Go28APEAJJEAiWCAHTWCACrAACBBEBAAAXCBKGCLFBFBFI
  GAGAkANF115,29,11172LWDq8452,366B106fGLEEAAJAMAEAAABABA108a363R64BvhL116EA135dZFZK89CFBFBFBCcLAZAS
  ABAOBNb123,389,29Cqo32MTAHFfJ30BdDHp158RdDdDhHtLKAOAGABAKAOAGABCtL311IVJHXFAjAI69FBAAlABCABWJWI31
  65SABJVJZFZfxFB64AODACA29j29C29cHA28,27vJVJSMR110,73wsMsMdf28IW250jFBPFx29JAHVjRnU27WLuyBBAMm32YZd
  29ABAHcCALpNDUAAAcRAYSB63GAAADAOAJGofHBBBVAGABAECARALE30JAABAAfAAYAAAluRDTC30pTBAA184oiDdpTA59kMA
  71,27eG185l116,64,31HBABHABAXOAAA94HBgPAAA28AJhGAUAKnSAR73,199a31IAeQAq30,112GABAfUAYFABA32NAWl260
  SOAAMAb124A79,922,230,196,2636,97O1072QFY3995E583,6841,30,1762,569G31Q79Q30RpPD31UES432m211,64,32Y
  BYl75EA66M64BAANBL7382i32,97,115,8701DAGABA291OA29CBANDH396,2308,107EMCIGJ5990,85A71ABBABBBDALAAAG
  A65ADBHAGA28ADAEAACGA340BYAYA31AYA31AYA31AYA31AYAH1844,31FF261,62,146mJGPA321,30Rl484,28,228,30BA
  207,31ACABAGBEIB224GADABAOA197,59,68GA1204DA27ABAABAAJADAAAAFADAAAAAACABAABAAAAAAAAAABAABDAGADADAA
  AJAQECAEAQ4420,42720,32,4382B5774B7473O622,2466,542,1506,4939E8490".toList

def digitZeros : List Nat := [
  1632, 1776, 1984, 2406, 2534, 2662, 2790, 2918, 3046, 3174, 3302, 3430, 3558, 3664, 3792, 3872,
  4160, 4240, 6112, 6160, 6470, 6608, 6784, 6800, 6992, 7088, 7232, 7248, 42528, 43216, 43264,
  43472, 43504, 43600, 44016, 65296, 66720, 68912, 68928, 69734, 69872, 69942, 70096, 70384,
  70736, 70864, 71248, 71360, 71376, 71386, 71472, 71904, 72016, 72688, 72784, 73040, 73120,
  73184, 73552, 90416, 92768, 92864, 93008, 93552, 118000, 120782, 120792, 120802, 120812, 120822,
  123200, 123632, 124144, 124401, 125264, 130032]

def isLetter (c : Char) : Bool := if c.toNat < 128 then c.isAlpha else inRuns letterRuns c.toNat

def isDigit (c : Char) : Bool :=
  if c.toNat < 128 then c.isDigit else digitZeros.any fun z => z ≤ c.toNat && c.toNat < z + 10

/-- The runs of code points from 127 on that are not printable. -/
def unprintableRuns : List Nat := lengths 0 "
  127bLA714BFDGAAATA397AfBrBCAwH27DFQVA192ApB59B101N59BqBOA28BAAKE32G75A161AHBBBVAGAACDBIBBBDHADBAEB
  YBCAFDBBVAGABABABBAAEDBBCCAGDAAGQJCAIACAVAGABAEBJACACBAODBLGGACAHBBBVAGABAEBIBBBCGCDBAEBRJBAFCCADC
  BAAABCBCCCLDECCADBAFANUEMACAWAPBIACADGBACABBDBJGVACAWAJAEBIACADGBECADBJACLMACAsACAFDPBZACARCXAIAAB
  GCADFAAAHFJBCLzD29eBAAAEAXAAAWBEAAAGAJBD32,72AdDgAdAOAMe198AAEAB377ADBGAAADBiADBaADBGAAADBOAyADB67
  B32CZF86BFB640A28C89GVIXITLMACABL94BJFJFNAKF89GkE70J31ALDLDACjBEKlDZFKC62B65A29BKFJFNBnBLT77A166H
  60COC62EkBKHkE534BFBfBFBHAAAAAAA31BuAOANBFASBCAIQXHoQBB27AMCbNaO140D666VKU1812B382EmAAEABxGBNXIGAG
  AGAGAGAGAGAGA126bZA89L214ZPA63A86B103EkA94A86IpA29293CwI348T184H221T60CJFxH70HLF116K30C78AKDaAwINB
  JB103X28JFBFBFIGAGA60D126BJF11172LWDq8452,366B106fGLEEZAEAAABABA650,32jFsASADDEA135D190CFBFBFBCCGA
  GMBBLAZASABAOBNb123ECDmC88AMCAon130,29CqO28DdI30EkE30AeDNj158BJFdDdDhHtKLAOAGABAKAOAGABCtL311IVJHX
  FAjAI69FBAAlABCABWA72HIpSABEaC27E27fxDTBrABEHACA29BCDJGIG64,32gDLIvC29B27EZGDLG80,73wsMsGnHJFfC29H
  B208,31AjACBBPFHIanHjVZf28TWI78DdI62AEMYGJFuARHgI96ATKRAo62GAAADAOAKF59EJFDAHBBBVAGABAEAJBBBCBAFAE
  GBGCEKJAABAAfAJAABAADAJABHB29,92AE30,72HJ166vBfb69KJFMSzFJFT28,27BODW185,60,100,83LHBABHABA30ABBLI
  J70HBnBK27,72H83M73GJ86H88bNJFIAmANJ29C32BVAN73GABAlCAABAIHJFFABAeABAFGJFlDJ246YGQAiC29,85AOrM923
  102,111AEK196,2636,99M1072PVJ3995E583,6841z1734,569G31AJD81AJF30BFJ70JJAGAUES432z198,91EYBYl75DyGQ
  64EKGI7382i32,97,115,8701DAGABA291OA29CBANDH396,2308,107EMCIGJBD3936,253C436FWOQOnBWI116,60,246JgB
  74H112U70,122TLTL87IY135,85A71ABBABBBDALAAAGA65ADBHAGA28ADAEAACGA340B292B702OEAO1104,31FF213GAQBGA
  BAEE62aA112mCNBJDB320,31QzEA464j214kDA192,31AVHB224GADABAOA197BPi76DJDB785,68,76,61,194DA27ABAABAA
  JADAAAAFADAAAAAACABAABAAAAAAAAAABAABDAGADADAAAJAQECAEAQtB270lD100LOBOAOAeJ174x29MlDIGBNF154,985CQC
  MC218FLDAOLDxHJFhH30BLDBNIg344HNBMCKCyAADPBLDJG147A103,1029,42720,32,4382B5774B7473O622,2466,542
  1506,4939E8490,707718,240,196112".toList

def isPrintable (c : Char) : Bool :=
  if c.toNat < 127 then 32 ≤ c.toNat else !inRuns unprintableRuns c.toNat

def escaped (c : Char) : String :=
  if let some b := strayByte? c then "\\x" ++ hexPadded 2 b.toNat
  else if c = '"' then "\\\""
  else if c = '\\' then "\\\\"
  else if isPrintable c then c.toString
  else
    let n := c.toNat
    if n = 7 then "\\a"
    else if n = 8 then "\\b"
    else if n = 12 then "\\f"
    else if n = 10 then "\\n"
    else if n = 13 then "\\r"
    else if n = 9 then "\\t"
    else if n = 11 then "\\v"
    else if n < 32 ∨ n = 127 then "\\x" ++ hexPadded 2 n
    else if n < 0x10000 then "\\u" ++ hexPadded 4 n
    else "\\U" ++ hexPadded 8 n

def quoted (s : String) : String := "\"" ++ String.join (s.toList.map escaped) ++ "\""

end TraceCompiler.Text
