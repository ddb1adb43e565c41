import Stablebox.Udhcp.Promise
import Stablebox.Udhcp.Pool
import Stablebox.Udhcp.RoundTrip
import Stablebox.Shell.RedirectUndo
import Stablebox.Coreutils.UucodeRoundTrip
import Stablebox.Networking.HttpdPermission
import Stablebox.Archival.UncompressRuns
import Stablebox.Udhcp.PoolTests
import Stablebox.Networking.HttpdAddressCheck
import Stablebox.Sysklogd.CircularRuns
import Stablebox.Miscutils.Crond
import Stablebox.Networking.TelnetdBuffers
import Stablebox.Networking.TelnetdRuns
import Stablebox.Networking.TftpPut
import Stablebox.Networking.TftpRuns
import Stablebox.Findutils.XargsRuns
import Stablebox.Archival.GzipHeader
import Stablebox.Udhcp.LeaseTimers
import Stablebox.Udhcp.RawPacketLength
import Stablebox.Udhcp.OptionOverload
import Stablebox.Udhcp.Script
import Stablebox.Udhcp.ClientPacket
import Stablebox.Archival.ArHeader
import Stablebox.Archival.DpkgVersion
import Stablebox.Archival.TarLongNames
import Stablebox.Archival.TarOctal
import Stablebox.Archival.UncompressWalks
import Stablebox.Archival.UnlzmaIndices
import Stablebox.Archival.BunzipBlock
import Stablebox.Archival.BunzipIntegrity
import Stablebox.Shell.FieldSplitting
import Stablebox.Shell.Getopts
import Stablebox.Shell.Jobs
import Stablebox.Shell.Updatepwd
import Stablebox.Coreutils.TestNumbers
import Stablebox.Coreutils.SortKeys
import Stablebox.Shell.SingleQuote
import Stablebox.Libbb.SimplifyPath
import Stablebox.Editors.Sed
import Stablebox.Editors.SedParse
import Stablebox.Libbb.EscapeSequence
import Stablebox.Archival.UnlzmaRange
import Stablebox.Archival.DpkgNames
import Stablebox.Coreutils.DiffSort
