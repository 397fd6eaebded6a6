import Mlib.Foundation.Bytes
import Mlib.Foundation.Mapping
import Mlib.Foundation.Shifts
import Mlib.Foundation.Following
import Mlib.Foundation.Keeping
import Mlib.Foundation.CStrings
import Mlib.Foundation.Blocks
import Mlib.Foundation.Search
import Mlib.Foundation.Runs
import Mlib.Foundation.Fields
import Mlib.Foundation.Store
import Mlib.Foundation.Rings
import Mlib.Foundation.Scanning
import Mlib.Foundation.Descriptors
import Mlib.Program.System
import Mlib.Program.Library
import Mlib.Program.Bucket
import Mlib.Program.Playlist
import Mlib.Program.Registry
import Mlib.Program.Lists
import Mlib.Program.Command
import Mlib.Program.Module
import Mlib.Program.Streams
import Mlib.Program.Messages
import Mlib.Program.Engine
import Mlib.Program.Backend
import Mlib.Program.Mplayer
import Mlib.Program.Util
import Mlib.Program.Genlib
import Mlib.Program.Terminal
import Mlib.Program.Lexer
import Mlib.Program.Shell
import Mlib.Program.Session
import Mlib.Program.GenlibMain
import Mlib.Program.Plugins
import Mlib.Lexing.Rules
import Mlib.Lexing.Texts
import Mlib.Lexing.Lines
import Mlib.Image.Layout
import Mlib.Image.Access
import Mlib.Image.AnyFile
import Mlib.Image.AnyGrowth
import Mlib.Image.GrownFiles
import Mlib.Image.AnyPlaylists
import Mlib.Image.Walking
import Mlib.Image.Growing
import Mlib.Image.Strings
import Mlib.Image.Adding
import Mlib.Image.Playlists
import Mlib.Image.Frames
import Mlib.Program.Calls
import Mlib.Image.Steps
import Mlib.Image.Listing
import Mlib.Image.Tail
import Mlib.Image.Rounds
import Mlib.Image.Inside
import Mlib.Image.Effects
import Mlib.Image.Creation
import Mlib.Image.Runs
import Mlib.Image.Failing
import Mlib.Image.Meaning
import Mlib.Image.Budgets
import Mlib.Properties.ImageInvariant
import Mlib.Properties.StoreRefinement
import Mlib.Properties.Remapping
import Mlib.Properties.DistinctNames
import Mlib.Properties.GlobalPlaylist
import Mlib.Properties.WalkEnds
import Mlib.Properties.FileBounds
import Mlib.Properties.LibraryRegistry
import Mlib.Properties.CreateThenOpen
import Mlib.Properties.HostIndependence
import Mlib.Properties.CommandRegistry
import Mlib.Properties.ModuleNames
import Mlib.Properties.CurrentStream
import Mlib.Properties.QueuedMessages
import Mlib.Properties.AddPathErrors
import Mlib.Properties.SinglePlayback
import Mlib.Properties.PlaybackLibrary
import Mlib.Properties.LineIndependence
import Mlib.Properties.QuotedArguments
import Mlib.Properties.ShellLoop
import Mlib.Properties.BucketSearch
import Mlib.Properties.RoundTrip
import Mlib.Properties.InvalidBucket
import Mlib.Properties.FailedChanges
import Mlib.Properties.MappedLength
import Mlib.Properties.GrowthRounds
import Mlib.Properties.CommandResults
import Mlib.Properties.CopiedPaths
import Mlib.Properties.BuiltUri
import Mlib.Properties.BackendPlay
import Mlib.Properties.FailedPlay
import Mlib.Properties.PlayedMedia
import Mlib.Properties.ParsedLists
import Mlib.Properties.FileExtensions
import Mlib.Properties.DroppedPrefix
import Mlib.Properties.TerminalChunks
import Mlib.Properties.DirectorySearch
import Mlib.Properties.TiledFiles
import Mlib.Properties.CarriedRecords
import Mlib.Properties.BucketGrowth
import Mlib.Properties.FilledPointers
import Mlib.Properties.ShellWorld
import Mlib.Properties.ShellSteps
import Mlib.Properties.ShellCommands
import Mlib.Properties.ShellListings
import Mlib.Properties.ShellSessions
import Mlib.Properties.ShellScripts
import Mlib.Properties.MplayerPipes
import Mlib.Properties.MplayerDescriptors
import Mlib.Properties.GenlibRuns
import Mlib.Properties.ProgramRuns
import Mlib.Properties.AddOrder
import Mlib.Properties.PluginRuns
import Mlib.Properties.ListRuns
import Mlib.Properties.FoundFiles
