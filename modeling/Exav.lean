import Exav.Engine.Nocase
import Exav.Engine.Wide
import Exav.Engine.Memo
import Exav.Engine.DepthFirst
import Exav.Engine.Triggers
import Exav.Icap.Delivery
import Exav.Icap.Encode
import Exav.Daemon.Delivered
import Exav.Yara.Windows
import Exav.Unpack.RarSolid
import Exav.Unpack.Collect
import Exav.Carve.Delivery
import Exav.Bytecode.Layout
import Exav.Engine.Loading
import Exav.Unpack.LzwRead
import Exav.Unpack.Lz4Frames
import Exav.Unpack.BinhexForks
import Exav.Walk.Salvage
import Exav.Hashes.Lookup
import Exav.Unpack.Vba
import Exav.Unpack.CfbStreams
import Exav.Yara.LowerBound
import Exav.Yara.Quantified
import Exav.Authenticode.Ranges
import Exav.Yara.Hir
import Exav.Views.ToldApart
import Exav.Yara.Refused
import Exav.Regex.Streamed
import Exav.Bytecode.Scan
import Exav.Unpack.Screnc
import Exav.Unpack.RtfObjects
import Exav.Unpack.PdfLzw
import Exav.Emu.Runs
import Exav.Unpack.ZipDeferred
import Exav.Unpack.NrvTokens
import Exav.Unpack.Lzo
import Exav.Unpack.VolumeNames
import Exav.Unpack.Iso
import Exav.Unpack.Hfs
import Exav.Unpack.Qcow2
